import Nucleus.Lang.Compiler

/-!
# `Nucleus.Proofs.Fuel`: more fuel, the same result

The fuel of the model only cuts runs off. A run of `nulang__parse` or of `nulang_compile` that
ends with some fuel ends in the same way with more (`le_parse`, `compile_mono`), so what the
program returns does not depend on the fuel (`parse_unique`).
-/

set_option autoImplicit false

namespace Nucleus.Proofs

open Nucleus.Lib
open Nucleus.Lib.Prog
open Nucleus.Lang
open Nucleus.Vm (TableManager)

variable {L : Type} [TokenSource L]

/-- Every result of the productions `callee` is one of `callee'`. -/
structure LeProductions (callee callee' : Productions L) : Prop where
  expr : ∀ m, Le (callee.parseExpr m) (callee'.parseExpr m)
  primary : Le callee.parsePrimary callee'.parsePrimary
  stmt : Le callee.parseStmt callee'.parseStmt

section
variable {n m : Nat} {self self' : Productions L}

/-! ### Expressions -/

/-- More fuel for a member chain. The induction is on the smaller fuel. -/
theorem le_parseMemberChain (h : n ≤ m) : ∀ child : NodeId,
    Le (parseMemberChain n child : ParserM L NodeId) (parseMemberChain m child) := by
  induction n generalizing m with
  | zero => exact fun _ => le_diverge _
  | succ n ih =>
      obtain ⟨k, rfl⟩ : ∃ k, m = k + 1 := ⟨m - 1, by omega⟩
      intro child
      refine le_bind (Le.refl _) fun _ => le_bind (Le.refl _) fun _ => le_bind (Le.refl _)
        fun node => le_bind (Le.refl _) fun _ => ?_
      exact le_ite (ih (by omega) node) (Le.refl _)

/-- More fuel for an optional chain. -/
theorem le_tryParseMemberChain (h : n ≤ m) (node : NodeId) :
    Le (tryParseMemberChain n node : ParserM L NodeId) (tryParseMemberChain m node) :=
  le_bind (Le.refl _) fun _ => le_ite (le_parseMemberChain h node) (Le.refl _)

/-- More fuel for a call and its arguments. -/
theorem le_parseCall (h : n ≤ m) (hself : LeProductions self self') (ident : NodeId) :
    Le (parseCall n self ident) (parseCall m self' ident) := by
  refine le_bind (Le.refl _) fun node => le_bind (Le.refl _) fun _ => le_bind (Le.refl _) fun _ =>
    le_bind (Le.refl _) fun _ => le_bind ?_ fun _ => le_bind ?_ fun _ => Le.refl _
  · exact le_bind (Le.refl _) fun _ =>
      le_ite (le_bind (hself.expr 0) fun _ => Le.refl _) (Le.refl _)
  · refine le_loop (fun _ => le_bind (Le.refl _) fun r => ?_) h ()
    cases r with
    | none => exact Le.refl _
    | some _ => exact le_bind (hself.expr 0) fun _ => Le.refl _

/-- More fuel for an optional call. -/
theorem le_tryParseCall (h : n ≤ m) (hself : LeProductions self self') (node : NodeId) :
    Le (tryParseCall n self node) (tryParseCall m self' node) :=
  le_bind (Le.refl _) fun _ => le_ite (le_parseCall h hself node) (Le.refl _)

/-- More fuel for an atom. -/
theorem le_parseAtom (h : n ≤ m) (hself : LeProductions self self') :
    Le (parseAtom n self) (parseAtom m self') := by
  refine le_bind (Le.refl _) fun tok => ?_
  split
  · exact le_bind (Le.refl _) fun node => le_bind (le_tryParseMemberChain h node)
      fun node => le_tryParseCall h hself node
  · exact Le.refl _
  · exact Le.refl _
  · exact le_bind (Le.refl _) fun node => le_bind (le_tryParseMemberChain h node)
      fun node => le_tryParseCall h hself node
  · exact Le.refl _
  · exact Le.refl _

/-- More fuel for a primary expression. -/
theorem le_parsePrimary (h : n ≤ m) (hself : LeProductions self self') :
    Le (parsePrimary n self) (parsePrimary m self') := by
  refine le_bind (Le.refl _) fun tok => le_ite ?_ (le_ite ?_ (le_ite (Le.refl _) ?_))
  · exact le_bind (Le.refl _) fun _ => le_bind (hself.expr 1) fun _ => Le.refl _
  · exact le_bind (Le.refl _) fun _ => le_bind hself.primary fun _ => Le.refl _
  · exact le_parseAtom h hself

/-- More fuel for an expression: the operand, and then the loop over the operators. -/
theorem le_parseExpr (h : n ≤ m) (hself : LeProductions self self') (minPrecedence : Nat) :
    Le (parseExpr n self minPrecedence) (parseExpr m self' minPrecedence) := by
  refine le_bind (le_parsePrimary h hself) fun lhs => le_loop (fun lhs => ?_) h lhs
  exact le_bind (Le.refl _) fun _ => le_ite (le_ite (Le.refl _) (le_bind (Le.refl _) fun _ =>
    le_bind (hself.expr _) fun _ => Le.refl _)) (Le.refl _)

/-! ### Statements -/

/-- More fuel for the loop over the statements of a body. -/
theorem le_parseBody (h : n ≤ m) (hself : LeProductions self self') (stop : List TokenType)
    (parent : NodeId) :
    Le (loop (parseBodyStmt self stop parent) n ()) (loop (parseBodyStmt self' stop parent) m ()) :=
  le_loop (fun _ => le_bind (Le.refl _) fun _ => le_ite (Le.refl _)
    (le_bind hself.stmt fun _ => Le.refl _)) h ()

/-- More fuel for a body below its own node. -/
theorem le_parseAndAppendIfBody (h : n ≤ m) (hself : LeProductions self self') (node : NodeId) :
    Le (parseAndAppendIfBody n self node) (parseAndAppendIfBody m self' node) :=
  le_bind (Le.refl _) fun body => le_parseBody h hself ifBodyStop body

/-- More fuel for a branch. -/
theorem le_parseBranch (h : n ≤ m) (hself : LeProductions self self') (node : NodeId) :
    Le (parseBranch n self node) (parseBranch m self' node) :=
  le_bind (hself.expr 0) fun _ => le_bind (Le.refl _) fun _ => le_bind (Le.refl _) fun _ =>
    le_parseAndAppendIfBody h hself node

/-- More fuel for a conditional. -/
theorem le_parseIfStmt (h : n ≤ m) (hself : LeProductions self self') :
    Le (parseIfStmt n self) (parseIfStmt m self') := by
  refine le_bind (Le.refl _) fun _ => le_bind (Le.refl _) fun node => le_bind (Le.refl _) fun _ =>
    le_bind (le_parseBranch h hself node) fun _ => le_bind ?_ fun _ => le_bind ?_ fun _ => Le.refl _
  · refine le_loop (fun _ => le_bind (Le.refl _) fun r => ?_) h ()
    cases r with
    | none => exact Le.refl _
    | some _ => exact le_bind (le_parseBranch h hself node) fun _ => Le.refl _
  · refine le_bind (Le.refl _) fun r => ?_
    cases r with
    | none => exact Le.refl _
    | some _ => exact le_parseAndAppendIfBody h hself node

/-- More fuel for a loop. -/
theorem le_parseWhileStmt (h : n ≤ m) (hself : LeProductions self self') :
    Le (parseWhileStmt n self) (parseWhileStmt m self') :=
  le_bind (Le.refl _) fun _ => le_bind (hself.expr 0) fun _ => le_bind (Le.refl _) fun _ =>
    le_bind (Le.refl _) fun _ => le_bind (Le.refl _) fun _ => le_bind (Le.refl _) fun _ =>
    le_bind (Le.refl _) fun body => le_bind (le_parseBody h hself endStop body) fun _ => Le.refl _

/-- More fuel for parameters. -/
theorem le_parseArgdecls (h : n ≤ m) (node : NodeId) :
    Le (parseArgdecls n node : ParserM L Unit) (parseArgdecls m node) :=
  le_bind (Le.refl _) fun _ => le_ite (le_loop (fun _ => Le.refl _) h ()) (Le.refl _)

/-- More fuel for a function. -/
theorem le_parseFundecl (h : n ≤ m) (hself : LeProductions self self') (exported : Bool) :
    Le (parseFundecl n self exported) (parseFundecl m self' exported) :=
  le_bind (Le.refl _) fun _ => le_bind (Le.refl _) fun _ => le_bind (Le.refl _) fun node =>
    le_bind (Le.refl _) fun _ => le_bind (Le.refl _) fun _ => le_bind (le_parseArgdecls h node)
    fun _ => le_bind (Le.refl _) fun _ => le_bind (Le.refl _) fun _ => le_bind (Le.refl _)
    fun body => le_bind (le_parseBody h hself endStop body) fun _ => Le.refl _

/-- More fuel for a statement that begins with a name. -/
theorem le_parseIdentStmt (h : n ≤ m) (hself : LeProductions self self') :
    Le (parseIdentStmt n self) (parseIdentStmt m self') := by
  refine le_bind (Le.refl _) fun head => le_bind (le_tryParseMemberChain h head) fun ident =>
    le_bind (Le.refl _) fun _ => le_ite ?_ (le_ite (le_parseCall h hself ident) (Le.refl _))
  exact le_bind (Le.refl _) fun _ => le_bind (hself.expr 0) fun _ => Le.refl _

/-- More fuel for a statement. -/
theorem le_parseStmt (h : n ≤ m) (hself : LeProductions self self') :
    Le (parseStmt n self) (parseStmt m self') := by
  have hsome : ∀ {k k' : ParserM L NodeId}, Le k k' → Le (some <$> k) (some <$> k') :=
    fun hk => le_bind hk fun _ => Le.refl _
  refine le_bind (Le.refl _) fun tok => ?_
  split
  · exact hsome (le_bind (Le.refl _) fun _ => le_bind (Le.refl _) fun _ => le_bind (Le.refl _)
      fun _ => le_bind (Le.refl _) fun _ => le_bind (hself.expr 0) fun _ => Le.refl _)
  · exact Le.refl _
  · exact hsome (le_parseFundecl h hself false)
  · exact hsome (le_bind (Le.refl _) fun _ => le_bind (hself.expr 0) fun _ => Le.refl _)
  · exact hsome (le_parseIfStmt h hself)
  · exact Le.refl _
  · exact hsome (le_parseWhileStmt h hself)
  · exact Le.refl _
  · exact Le.refl _
  · exact hsome (le_parseIdentStmt h hself)
  · exact Le.refl _

end

/-! ### The module -/

/-- More fuel for all productions. The induction is on the smaller fuel, and each level hands the
smaller one down. -/
theorem le_productions : ∀ {n m : Nat}, n ≤ m →
    LeProductions (productions n : Productions L) (productions m) := by
  intro n
  induction n with
  | zero => exact fun _ => ⟨fun _ => le_diverge _, le_diverge _, le_diverge _⟩
  | succ n ih =>
      intro m h
      obtain ⟨k, rfl⟩ : ∃ k, m = k + 1 := ⟨m - 1, by omega⟩
      have hnk : n ≤ k := by omega
      exact ⟨le_parseExpr hnk (ih hnk), le_parsePrimary hnk (ih hnk), le_parseStmt hnk (ih hnk)⟩

/-- More fuel gives the same result of `nulang__parse`. -/
theorem le_parse {n m : Nat} (h : n ≤ m) : Le (parse n : ParserM L Unit) (parse m) := by
  refine le_bind (le_loop (fun _ => Le.refl _) h ()) fun _ => le_bind (Le.refl _) fun stmt =>
    le_bind (le_loop (fun stmt => ?_) h stmt) fun _ => Le.refl _
  exact le_bind (Le.refl _) fun _ => le_ite (Le.refl _)
    (le_bind (le_productions h).stmt fun _ => Le.refl _)

/-- The result of `nulang__parse` does not depend on the fuel. -/
theorem parse_unique {n m : Nat} {p : Parser L} {r r' : Except Error Unit × Parser L}
    (h : parse n p = some r) (h' : parse m p = some r') : r = r' := by
  have hr := le_parse (Nat.le_max_left n m) p r h
  have hr' := le_parse (Nat.le_max_right n m) p r' h'
  exact Option.some.inj (hr.symm.trans hr')

/-! ### The passes -/

/-- More fuel for a walk over the children whose callback has more. -/
theorem le_foreachChilds {σ : Type} {ast : σ → Ast}
    {callback callback' : NodeId → NodeId → Prog σ Error Unit} {n m : Nat} (h : n ≤ m)
    (hcallback : ∀ id node, Le (callback id node) (callback' id node)) (parent : NodeId) :
    Le (astForeachChilds ast callback n parent) (astForeachChilds ast callback' m parent) :=
  le_bind (le_loop (fun _ => le_bind (Le.refl _) fun _ => le_ite (Le.refl _)
    (le_bind (hcallback _ _) fun _ => Le.refl _)) h nodeNull) fun _ => Le.refl _

/-- More fuel for the walk of pass 2. -/
theorem le_resolveSymbolsScoped : ∀ {n m : Nat}, n ≤ m → ∀ id node : NodeId,
    Le (resolveSymbolsScoped n id node) (resolveSymbolsScoped m id node) := by
  intro n
  induction n with
  | zero => exact fun _ _ _ => le_diverge _
  | succ n ih =>
      intro m h id node
      obtain ⟨k, rfl⟩ : ∃ k, m = k + 1 := ⟨m - 1, by omega⟩
      have hnk : n ≤ k := by omega
      exact le_bind (Le.refl _) fun _ => le_bind (Le.refl _) fun _ =>
        le_bind (le_foreachChilds hnk (ih hnk) id) fun _ => Le.refl _

/-- More fuel for pass 2. -/
theorem le_resolveSymbols {n m : Nat} (h : n ≤ m) : Le (resolveSymbols n) (resolveSymbols m) :=
  le_bind (le_loop (fun _ => Le.refl _) h nodeNull) fun _ => le_bind (Le.refl _) fun _ =>
    le_resolveSymbolsScoped h _ _

/-- More fuel for the walk of pass 3. -/
theorem le_resolveArchetype {vm : TableManager} : ∀ {n m : Nat}, n ≤ m → ∀ id node : NodeId,
    Le (resolveArchetype vm n id node) (resolveArchetype vm m id node) := by
  intro n
  induction n with
  | zero => exact fun _ _ _ => le_diverge _
  | succ n ih =>
      intro m h id node
      obtain ⟨k, rfl⟩ : ∃ k, m = k + 1 := ⟨m - 1, by omega⟩
      have hnk : n ≤ k := by omega
      exact le_bind (Le.refl _) fun _ => le_foreachChilds hnk (ih hnk) id

/-- More fuel for pass 3. -/
theorem le_resolveArchetypes {vm : TableManager} {n m : Nat} (h : n ≤ m) :
    Le (resolveArchetypes vm n) (resolveArchetypes vm m) :=
  le_bind (Le.refl _) fun _ => le_resolveArchetype h _ _

/-- More fuel gives the same result of `nulang__analyze`. -/
theorem analyze_mono {vm : TableManager} {n m : Nat} (h : n ≤ m) {ast : Ast} {error : ErrorData}
    {r : Except Error Unit × Ast × ErrorData} (hrun : analyze vm n ast error = some r) :
    analyze vm m ast error = some r := by
  unfold analyze at hrun ⊢
  rcases hsymbols : resolveSymbols n ⟨ast, [], error⟩ with _ | ⟨e | ⟨⟩, s⟩
  · rw [hsymbols] at hrun
    cases hrun
  · rw [le_resolveSymbols h _ _ hsymbols]
    rwa [hsymbols] at hrun
  · rw [le_resolveSymbols h _ _ hsymbols]
    rw [hsymbols] at hrun
    rcases harchetypes : resolveArchetypes vm n ⟨s.ast, s.error⟩ with _ | ⟨result, s'⟩
    · simp only [harchetypes] at hrun
      cases hrun
    · simp only [harchetypes] at hrun
      simp only [le_resolveArchetypes h _ _ harchetypes]
      exact hrun

/-- More fuel gives the same result of `nulang_compile`. -/
theorem compile_mono {vm : TableManager} {n m : Nat} (h : n ≤ m) {uninit : NodeId}
    {compiler : Compiler} {source : Source} {r : Status × Compiler}
    (hrun : compile vm n uninit compiler source = some r) :
    compile vm m uninit compiler source = some r := by
  unfold compile at hrun ⊢
  dsimp only at hrun ⊢
  rcases hparse : parse n (parserStart source (compilerPrepare compiler source).ast
    (compilerPrepare compiler source).errorData uninit) with _ | ⟨e | ⟨⟩, p⟩
  · rw [hparse] at hrun
    cases hrun
  · -- a run that ends with an error ends so with more fuel
    rw [le_parse h _ _ hparse]
    rwa [hparse] at hrun
  · rw [le_parse h _ _ hparse]
    rw [hparse] at hrun
    rcases hanalyze : analyze vm n p.ast p.error with _ | ⟨result, a, d⟩
    · simp only [hanalyze] at hrun
      cases hrun
    · simp only [hanalyze] at hrun
      simp only [analyze_mono h hanalyze]
      exact hrun

end Nucleus.Proofs
