import Nucleus.Proofs.Parse
import Nucleus.Proofs.Twins

/-!
# `Nucleus.Proofs.TwinParse`: two runs of the productions

Every production of the parser keeps the invariant `Good` of two runs side by side, and the node
that it returns is allocated. `twinProductions` ties the knot over the fuel, and `runs_parse` is
the whole parse.

A statement that begins with an idle token stores nothing, and an uninitialised id is appended in
its place. Neither run comes further than that: the loop around the statement never ends
(`bodyLoop_idle`, `moduleLoop_idle`).
-/

set_option autoImplicit false

namespace Nucleus.Proofs

open Nucleus.Lib
open Nucleus.Lib.Prog
open Nucleus.Lang
open Nucleus.Spec

variable {L L' : Type} [TokenSource L] [LawfulTokenSource L] [TokenSource L']
  [LawfulTokenSource L'] {P : Pair L L'}

variable {ids : List NodeId} {o : Option (Parser L)} {q : Parser L'}

/-! ### New nodes -/

/-- A new node and what its production stores into it. -/
theorem runs_newNode (h : Good P noNode ids o q) {α : Type} {f : Node → Node}
    {k : NodeId → ParserM L α} {k' : NodeId → ParserM L' α} (hs : Stores P.InSource f f)
    {Q : α → Option (Parser L) → Parser L' → Prop}
    (hQ : ∀ id o' q', Good P noNode (id :: ids) o' q' → P.Runs (k id) (k' id) o' q' Q) :
    P.Runs (parserAddNode >>= fun id => setNode id f >>= fun _ => k id)
      (parserAddNode >>= fun id => setNode id f >>= fun _ => k' id) o q Q := by
  refine Shadow.bind (runs_addNode h fun id o₁ q₁ h0 h₁ => ?_)
  exact Shadow.bind (runs_setNode h₁ List.mem_cons_self h0 hs fun o₂ q₂ h₂ => hQ id o₂ q₂ h₂)

/-- A child that is appended to a node. -/
theorem runs_append (h : Good P noNode ids o q) {α : Type} {parent c : NodeId}
    {k : ParserM L α} {k' : ParserM L' α} (hp : parent ∈ ids) (hc : c ∈ ids)
    {Q : α → Option (Parser L) → Parser L' → Prop}
    (hQ : ∀ o' q', Good P noNode ids o' q' → P.Runs k k' o' q' Q) :
    P.Runs (parserAppendChild parent c >>= fun _ => k)
      (parserAppendChild parent c >>= fun _ => k') o q Q :=
  Shadow.bind (runs_appendChild h (h.lt hp) (h.lt hc) hQ)

/-! ### Types -/

/-- The type behind a colon. -/
theorem runs_parseVartype (h : Good P noNode ids o q)
    {Q : Vartype → Option (Parser L) → Parser L' → Prop}
    (hQ : ∀ type o' q', Good P noNode ids o' q' → Q type o' q') :
    P.Runs parseVartype parseVartype o q Q := by
  refine Shadow.bind (runs_expect h fun _ o₁ q₁ h₁ _ => ?_)
  refine Shadow.bind (runs_accept h₁ (fun tok o₂ q₂ h₂ _ => Shadow.pure (hQ _ o₂ q₂ h₂))
    fun o₂ q₂ h₂ => ?_)
  refine Shadow.bind (runs_accept h₂ (fun tok o₃ q₃ h₃ _ => Shadow.pure (hQ _ o₃ q₃ h₃))
    fun o₃ q₃ h₃ => ?_)
  exact Shadow.bind (runs_next h₃ fun tok o₄ q₄ _ h₄ _ => runs_raise h₄ (by decide))

/-- A type that may be absent. -/
theorem runs_tryParseVartype (h : Good P noNode ids o q)
    {Q : Vartype × Bool → Option (Parser L) → Parser L' → Prop}
    (hQ : ∀ type o' q', Good P noNode ids o' q' → Q type o' q') :
    P.Runs tryParseVartype tryParseVartype o q Q := by
  refine Shadow.bind (runs_peek h fun tok o₁ q₁ h₁ _ _ => ?_)
  refine Shadow.ite (fun _ => ?_) fun _ => Shadow.pure (hQ _ o₁ q₁ h₁)
  exact Shadow.bind (runs_parseVartype h₁ fun type o₂ q₂ h₂ => Shadow.pure (hQ _ o₂ q₂ h₂))

/-! ### Symbols and member chains -/

/-- The types that a member chain can start from. -/
def designators : List NodeType := [.astSymref, .astMember, .astBuiltin]

/-- The node `id` is one that a member chain can start from. -/
def Designates (a : Ast) (id : NodeId) : Prop := (a.nodes id).type ∈ designators

/-- Appending a child keeps the types. -/
theorem appended_type (n : Node) (last p c i : Nat) : (n.appended last p c i).type = n.type := by
  have hite : ∀ {x : Prop} [Decidable x] {n m k : Node}, n.type = k.type → m.type = k.type →
      (if x then n else m).type = k.type := by
    intro x _ n m k hn hm
    split
    · exact hn
    · exact hm
  exact hite (hite (hite (hite rfl rfl) (hite rfl rfl)) (hite rfl rfl))
    (hite (hite (hite rfl rfl) (hite rfl rfl)) (hite rfl rfl))

/-- Appending a child keeps what a node designates. -/
theorem designates_appendChild {a : Ast} {p c i : NodeId} (h : Designates a i) :
    Designates (appendChild a p c) i := by
  unfold Designates
  rwa [appendChild_nodes, appended_type]

section
omit [TokenSource L'] [LawfulTokenSource L']

/-- What a run establishes in its last steps. -/
theorem spec_after {α β : Type} {m : ParserM L' α} {f : α → ParserM L' β} {q : Parser L'}
    {R : β → Parser L' → Prop} (h : ∀ a q', Spec (f a) q' R) : Spec (m >>= f) q R :=
  Spec.bind fun a q' _ => h a q'

/-- A store of a designating type. -/
theorem designates_setNode {id : NodeId} {f : Node → Node} {q : Parser L'}
    (hf : (f (q.ast.nodes id)).type ∈ designators) :
    Spec (setNode id f) q fun _ q' => Designates q'.ast id := by
  refine Spec.modify ?_
  show ((q.ast.modifyNode id f).nodes id).type ∈ designators
  rwa [Ast.modifyNode_nodes_self]

/-- A new node has the type that is stored into it. -/
theorem designates_newNode {f : Node → Node} (hf : ∀ n, (f n).type ∈ designators)
    {q : Parser L'} :
    Spec (parserAddNode >>= fun id => setNode id f >>= fun _ => pure id) q
      fun id q' => Designates q'.ast id :=
  spec_after fun _ _ => Spec.bind ((designates_setNode (hf _)).mono fun _ _ h => Spec.pure h)

end

section
omit [LawfulTokenSource L']

/-- A symbol reference designates. -/
theorem designates_parseSymbol {q : Parser L'} :
    Spec parseSymbol q fun id q' => Designates q'.ast id :=
  spec_after fun _ _ => designates_newNode fun _ => by simp [designators]

/-- A constructor designates. -/
theorem designates_parseConstructor {q : Parser L'} :
    Spec parseConstructor q fun id q' => Designates q'.ast id :=
  spec_after fun _ _ => designates_newNode fun _ => by simp [designators]

omit [TokenSource L'] in
/-- A member access designates. -/
theorem designates_memberNode {child : NodeId} {tok : Token} {q : Parser L'}
    (hchild : Designates q.ast child) :
    Spec (memberNode child tok) q fun id q' => Designates q'.ast id := by
  have hmember : Spec (parserAddNode >>= fun id => setNode id (fun n =>
      { n with span := tok.span, type := .astMember, value := .member tok.value.toIdentifier }) >>=
      fun _ => parserAppendChild id child >>= fun _ => pure id) q
        fun id q' => Designates q'.ast id := by
    refine spec_after fun id q₁ => Spec.bind ((designates_setNode ?_).mono fun _ q₂ h₂ => ?_)
    · simp [designators]
    · exact Spec.bind (Spec.modify (Spec.pure (designates_appendChild h₂)))
  unfold memberNode
  refine Spec.bind (Spec.gets ?_)
  split
  · exact hmember
  · exact hmember
  · split
    · split
      · exact spec_after fun _ _ => Spec.fail
      · refine Spec.bind ((designates_setNode ?_).mono fun _ _ h => Spec.pure h)
        exact hchild
    · exact spec_after fun _ _ => Spec.fail
  · -- a node of any other type is no designator
    rename_i hmember hsymref hbuiltin
    simp only [Designates, designators, List.mem_cons, List.not_mem_nil, or_false] at hchild
    rcases hchild with h | h | h
    · exact absurd h hsymref
    · exact absurd h hmember
    · exact absurd h hbuiltin

/-- A peek keeps the tree. -/
theorem parserPeek_ast {n : Nat} {q : Parser L'} :
    Spec (parserPeek n) q fun _ q' => q'.ast = q.ast := by
  intro tok q' hrun
  unfold parserPeek fromLexer at hrun
  split at hrun
  · cases hrun
    rfl
  all_goals cases hrun

/-- An expected token keeps the tree. -/
theorem parserExpect_ast {type : TokenType} {q : Parser L'} :
    Spec (parserExpect type) q fun _ q' => q'.ast = q.ast := by
  intro tok q' hrun
  obtain ⟨tok', q₁, hconsume, hrest⟩ := bind_eq_ok.mp hrun
  have hast : q₁.ast = q.ast := by
    unfold parserConsume fromLexer at hconsume
    split at hconsume
    · cases hconsume
      rfl
    all_goals cases hconsume
  split at hrest
  · cases hrest
  · cases hrest
    exact hast

end

/-- The node of a member access. The cases are the types of its owner. -/
theorem runs_memberNode {child : NodeId} {tok : Token} (h : Good P noNode ids o q)
    (hc : child ∈ ids) (hchild : Designates q.ast child) (hs : P.InSource tok.span)
    {Q : NodeId → Option (Parser L) → Parser L' → Prop}
    (hQ : ∀ id o' q', Good P noNode (id :: ids) o' q' → Q id o' q') :
    P.Runs (memberNode child tok) (memberNode child tok) o q Q := by
  have hmember : P.Runs
      (parserAddNode >>= fun id => setNode id (fun n =>
        { n with
            span := tok.span, type := .astMember, value := .member tok.value.toIdentifier }) >>=
        fun _ => parserAppendChild id child >>= fun _ => pure id)
      (parserAddNode >>= fun id => setNode id (fun n =>
        { n with
            span := tok.span, type := .astMember, value := .member tok.value.toIdentifier }) >>=
        fun _ => parserAppendChild id child >>= fun _ => pure id) o q Q := by
    refine runs_newNode h (stores_value hs) fun id o₁ q₁ h₁ => ?_
    exact runs_append h₁ List.mem_cons_self (List.mem_cons_of_mem _ hc) fun o₂ q₂ h₂ =>
      Shadow.pure (hQ id o₂ q₂ h₂)
  have hraise : ∀ {α : Type} {R : α → Option (Parser L) → Parser L' → Prop}, P.Runs
      (report (fun e => { e with span := tok.span }) >>= fun _ => Prog.fail .unknownSymbolType)
      (report (fun e => { e with span := tok.span }) >>= fun _ => Prog.fail .unknownSymbolType)
      o q R := runs_raise h (by decide)
  unfold memberNode
  refine Shadow.reads fun n hsome hnone => ?_
  -- the two nodes have the same type, and a builtin's value too
  have hsame : n.type = (q.ast.nodes child).type ∧
      ((q.ast.nodes child).type = .astBuiltin → n.value = (q.ast.nodes child).value) := by
    rcases o with _ | p
    · rw [hnone rfl]
      exact ⟨rfl, fun _ => rfl⟩
    · have htwin := (h.beside p rfl).twins.nodes child (h.lt hc) not_false
      rw [hsome p rfl]
      exact ⟨htwin.type, fun ht => htwin.value (by rw [htwin.type, ht]; rfl)⟩
  simp only [Designates, designators, List.mem_cons, List.not_mem_nil, or_false] at hchild
  rcases hchild with ht | ht | ht
  · simp only [hsame.1, ht]
    exact hmember
  · simp only [hsame.1, ht]
    exact hmember
  · simp only [hsame.1, hsame.2 ht, ht]
    split
    · split
      · exact hraise
      · rename_i function _
        exact Shadow.bind (runs_revalue
          (f := fun n => { n with value := .builtin (.builtinFunction function) }) h hc
          ⟨fun _ => rfl, fun _ => rfl, fun _ => rfl, fun _ _ _ => rfl⟩ fun o₁ q₁ h₁ =>
            Shadow.pure (hQ child o₁ q₁ (h₁.cons (h₁.lt hc))))
    · exact hraise

/-- A symbol reference. -/
theorem runs_parseSymbol (h : Good P noNode ids o q)
    {Q : NodeId → Option (Parser L) → Parser L' → Prop}
    (hQ : ∀ id o' q', Good P noNode (id :: ids) o' q' → Designates q'.ast id → Q id o' q') :
    P.Runs parseSymbol parseSymbol o q Q := by
  have hruns : P.Runs parseSymbol parseSymbol o q
      fun id o' q' => Good P noNode (id :: ids) o' q' := by
    refine Shadow.bind (runs_expect h fun tok o₁ q₁ h₁ hs => ?_)
    exact runs_newNode h₁ (stores_value hs) fun id o₂ q₂ h₂ => Shadow.pure h₂
  exact (hruns.also designates_parseSymbol).mono fun id o' q' h' => hQ id o' q' h'.1 h'.2

/-- A constructor. -/
theorem runs_parseConstructor (h : Good P noNode ids o q)
    {Q : NodeId → Option (Parser L) → Parser L' → Prop}
    (hQ : ∀ id o' q', Good P noNode (id :: ids) o' q' → Designates q'.ast id → Q id o' q') :
    P.Runs parseConstructor parseConstructor o q Q := by
  have hruns : P.Runs parseConstructor parseConstructor o q
      fun id o' q' => Good P noNode (id :: ids) o' q' := by
    refine Shadow.bind (runs_expect h fun tok o₁ q₁ h₁ hs => ?_)
    exact runs_newNode h₁ (stores_value hs) fun id o₂ q₂ h₂ => Shadow.pure h₂
  exact (hruns.also designates_parseConstructor).mono fun id o' q' h' => hQ id o' q' h'.1 h'.2

/-- The chain of members behind an owner. The induction is on the fuel. -/
theorem runs_parseMemberChain (n : Nat) : ∀ {ids : List NodeId} {o : Option (Parser L)}
    {q : Parser L'} {child : NodeId}, Good P noNode ids o q → child ∈ ids →
      Designates q.ast child → P.Runs (parseMemberChain n child) (parseMemberChain n child) o q
        fun id o' q' => Good P noNode (id :: ids) o' q' := by
  induction n with
  | zero =>
      intro ids o q child _ _ _
      exact Shadow.diverge
  | succ n ih =>
      intro ids o q child h hc hchild
      refine Shadow.bind (((runs_expect (Q := fun _ => Good P noNode ids) h
        fun _ _ _ h' _ => h').also parserExpect_ast).mono fun _ o₁ q₁ ⟨h₁, hast₁⟩ => ?_)
      refine Shadow.bind (((runs_expect (Q := fun tok o' q' => Good P noNode ids o' q' ∧
        P.InSource tok.span) h₁ fun _ _ _ h' hs => ⟨h', hs⟩).also parserExpect_ast).mono
          fun tok o₂ q₂ ⟨⟨h₂, hs⟩, hast₂⟩ => ?_)
      -- no node is stored between the owner and its member
      have hchild₂ : Designates q₂.ast child := by rwa [hast₂, hast₁]
      refine Shadow.bind (((runs_memberNode h₂ hc hchild₂ hs fun _ _ _ h' => h').also
        (designates_memberNode hchild₂)).mono fun node o₃ q₃ ⟨h₃, hnode⟩ => ?_)
      refine Shadow.bind (((runs_peek (Q := fun _ => Good P noNode (node :: ids)) h₃
        fun _ _ _ h' _ _ => h').also parserPeek_ast).mono fun tok o₄ q₄ ⟨h₄, hast₄⟩ => ?_)
      refine Shadow.ite (fun _ => ?_) fun _ => Shadow.pure h₄
      refine (ih h₄ List.mem_cons_self (by rwa [hast₄])).mono fun id o₅ q₅ h₅ => ?_
      exact h₅.subset (List.cons_subset_cons id (List.subset_cons_self node ids))

/-- A chain of members that may be absent. -/
theorem runs_tryParseMemberChain {n : Nat} {child : NodeId} (h : Good P noNode ids o q)
    (hc : child ∈ ids) (hchild : Designates q.ast child)
    {Q : NodeId → Option (Parser L) → Parser L' → Prop}
    (hQ : ∀ id o' q', Good P noNode (id :: ids) o' q' → Q id o' q') :
    P.Runs (tryParseMemberChain n child) (tryParseMemberChain n child) o q Q := by
  refine Shadow.bind (((runs_peek (Q := fun _ => Good P noNode ids) h
    fun _ _ _ h' _ _ => h').also parserPeek_ast).mono fun tok o₁ q₁ ⟨h₁, hast⟩ => ?_)
  refine Shadow.ite (fun _ => ?_) fun _ => Shadow.pure (hQ child o₁ q₁ (h₁.cons (h₁.lt hc)))
  exact (runs_parseMemberChain n h₁ hc (by rwa [hast])).mono hQ

/-! ### Calls and atoms -/

/-- What the two runs of the forward-declared productions do. A statement that begins with an idle
token stores nothing and leaves the token there. -/
structure TwinProductions (P : Pair L L') (callee : Productions L) (callee' : Productions L') :
    Prop where
  expr : ∀ {ids : List NodeId} {o : Option (Parser L)} {q : Parser L'} (m : Nat),
    Good P noNode ids o q → P.Runs (callee.parseExpr m) (callee'.parseExpr m) o q
      fun id o' q' => Good P noNode (id :: ids) o' q'
  primary : ∀ {ids : List NodeId} {o : Option (Parser L)} {q : Parser L'},
    Good P noNode ids o q → P.Runs callee.parsePrimary callee'.parsePrimary o q
      fun id o' q' => Good P noNode (id :: ids) o' q'
  stmt : ∀ {ids : List NodeId} {o : Option (Parser L)} {q : Parser L'},
    Good P noNode ids o q → P.Runs callee.parseStmt callee'.parseStmt o q fun
      | some id, o', q' => Good P noNode (id :: ids) o' q'
      | none, o', q' => ∃ tok, tok.type ∈ idleTokens ∧ Ahead tok o' q'

variable {self : Productions L} {self' : Productions L'}

/-- An expression that becomes the next child of `node`. -/
theorem runs_appendExpr (hself : TwinProductions P self self') {node : NodeId}
    (h : Good P noNode ids o q) (hnode : node ∈ ids) {α : Type} {k : ParserM L α}
    {k' : ParserM L' α} {Q : α → Option (Parser L) → Parser L' → Prop}
    (hQ : ∀ o' q', Good P noNode ids o' q' → P.Runs k k' o' q' Q) :
    P.Runs (self.parseExpr 0 >>= fun expr => parserAppendChild node expr >>= fun _ => k)
      (self'.parseExpr 0 >>= fun expr => parserAppendChild node expr >>= fun _ => k') o q Q := by
  refine Shadow.bind ((hself.expr 0 h).mono fun expr o₁ q₁ h₁ => ?_)
  exact runs_append h₁ (List.mem_cons_of_mem _ hnode) List.mem_cons_self fun o₂ q₂ h₂ =>
    hQ o₂ q₂ (h₂.subset (List.subset_cons_self _ _))

/-- The first argument of a call. -/
theorem runs_parseFirstArg (hself : TwinProductions P self self') {node : NodeId}
    (h : Good P noNode ids o q) (hnode : node ∈ ids)
    {Q : Unit → Option (Parser L) → Parser L' → Prop}
    (hQ : ∀ o' q', Good P noNode ids o' q' → Q () o' q') :
    P.Runs (parseFirstArg self node) (parseFirstArg self' node) o q Q := by
  refine Shadow.bind (runs_peek h fun tok o₁ q₁ h₁ _ _ => ?_)
  refine Shadow.ite (fun _ => ?_) fun _ => Shadow.pure (hQ o₁ q₁ h₁)
  refine Shadow.bind ((hself.expr 0 h₁).mono fun expr o₂ q₂ h₂ => ?_)
  exact runs_appendChild h₂ (h₂.lt (List.mem_cons_of_mem _ hnode)) (h₂.lt List.mem_cons_self)
    fun o₃ q₃ h₃ => hQ o₃ q₃ (h₃.subset (List.subset_cons_self _ _))

/-- The further arguments of a call. The induction is on the fuel. -/
theorem runs_parseNextArgs (hself : TwinProductions P self self') {node : NodeId} (n : Nat)
    (h : Good P noNode ids o q) (hnode : node ∈ ids) :
    P.Runs (loop (parseNextArg self node) n ()) (loop (parseNextArg self' node) n ()) o q
      fun _ => Good P noNode ids := by
  refine Shadow.loop (I := fun _ => Good P noNode ids) (fun _ o q h => ?_) n () o q h
  refine Shadow.bind (runs_accept h (fun tok o₁ q₁ h₁ _ => ?_)
    fun o₁ q₁ h₁ => Shadow.pure h₁)
  exact runs_appendExpr hself h₁ hnode fun o₂ q₂ h₂ => Shadow.pure h₂

/-- A call. -/
theorem runs_parseCall (hself : TwinProductions P self self') {n : Nat} {ident : NodeId}
    (h : Good P noNode ids o q) (hident : ident ∈ ids)
    {Q : NodeId → Option (Parser L) → Parser L' → Prop}
    (hQ : ∀ id o' q', Good P noNode (id :: ids) o' q' → Q id o' q') :
    P.Runs (parseCall n self ident) (parseCall n self' ident) o q Q := by
  refine runs_newNode h (stores_type rfl rfl) fun node o₁ q₁ h₁ => ?_
  refine runs_append h₁ List.mem_cons_self (List.mem_cons_of_mem _ hident) fun o₂ q₂ h₂ => ?_
  refine Shadow.bind (runs_expect h₂ fun _ o₃ q₃ h₃ _ => ?_)
  refine Shadow.bind (runs_parseFirstArg hself h₃ List.mem_cons_self fun o₄ q₄ h₄ => ?_)
  refine Shadow.bind ((runs_parseNextArgs hself n h₄ List.mem_cons_self).mono
    fun _ o₅ q₅ h₅ => ?_)
  exact Shadow.bind (runs_expect h₅ fun _ o₆ q₆ h₆ _ => Shadow.pure (hQ node o₆ q₆ h₆))

/-- A call, or what is called alone. -/
theorem runs_tryParseCall (hself : TwinProductions P self self') {n : Nat} {node : NodeId}
    (h : Good P noNode ids o q) (hnode : node ∈ ids)
    {Q : NodeId → Option (Parser L) → Parser L' → Prop}
    (hQ : ∀ id o' q', Good P noNode (id :: ids) o' q' → Q id o' q') :
    P.Runs (tryParseCall n self node) (tryParseCall n self' node) o q Q := by
  refine Shadow.bind (runs_peek h fun tok o₁ q₁ h₁ _ _ => ?_)
  refine Shadow.ite (fun _ => runs_parseCall hself h₁ hnode hQ) fun _ => ?_
  exact Shadow.pure (hQ node o₁ q₁ (h₁.cons (h₁.lt hnode)))

/-- An insert or a singleton. -/
theorem runs_parseInsertOrSingleton {type : NodeType} (h : Good P noNode ids o q)
    {Q : NodeId → Option (Parser L) → Parser L' → Prop}
    (hQ : ∀ id o' q', Good P noNode (id :: ids) o' q' → Q id o' q') :
    P.Runs (parseInsertOrSingleton type) (parseInsertOrSingleton type) o q Q := by
  refine Shadow.bind (runs_next h fun _ o₁ q₁ _ h₁ _ => ?_)
  refine Shadow.bind (runs_expect h₁ fun _ o₂ q₂ h₂ _ => ?_)
  refine Shadow.bind (runs_expect h₂ fun tok o₃ q₃ h₃ hs => ?_)
  refine runs_newNode h₃ (stores_value hs) fun id o₄ q₄ h₄ => ?_
  exact Shadow.bind (runs_ignore_expect h₄ fun o₅ q₅ h₅ => Shadow.pure (hQ id o₅ q₅ h₅))

/-- A literal. -/
theorem runs_parseLiteral (h : Good P noNode ids o q)
    {Q : NodeId → Option (Parser L) → Parser L' → Prop}
    (hQ : ∀ id o' q', Good P noNode (id :: ids) o' q' → Q id o' q') :
    P.Runs parseLiteral parseLiteral o q Q := by
  refine Shadow.bind (runs_next h fun tok o₁ q₁ _ h₁ hs => ?_)
  exact runs_newNode h₁ (stores_value hs) fun id o₂ q₂ h₂ => Shadow.pure (hQ id o₂ q₂ h₂)

/-- A symbol or a constructor, its members and its arguments. -/
theorem runs_designator (hself : TwinProductions P self self') {n : Nat} {head : NodeId}
    (h : Good P noNode (head :: ids) o q) (hhead : Designates q.ast head)
    {Q : NodeId → Option (Parser L) → Parser L' → Prop}
    (hQ : ∀ id o' q', Good P noNode (id :: ids) o' q' → Q id o' q') :
    P.Runs (tryParseMemberChain n head >>= fun node => tryParseCall n self node)
      (tryParseMemberChain n head >>= fun node => tryParseCall n self' node) o q Q := by
  refine Shadow.bind (runs_tryParseMemberChain h List.mem_cons_self hhead fun node o₁ q₁ h₁ => ?_)
  refine runs_tryParseCall hself h₁ List.mem_cons_self fun id o₂ q₂ h₂ => hQ id o₂ q₂ ?_
  exact h₂.subset (List.cons_subset_cons id (List.Subset.trans (List.subset_cons_self head ids)
    (List.subset_cons_self node _)))

/-- An operand without a prefix. -/
theorem runs_parseAtom (hself : TwinProductions P self self') {n : Nat}
    (h : Good P noNode ids o q) {Q : NodeId → Option (Parser L) → Parser L' → Prop}
    (hQ : ∀ id o' q', Good P noNode (id :: ids) o' q' → Q id o' q') :
    P.Runs (parseAtom n self) (parseAtom n self') o q Q := by
  refine Shadow.bind (runs_peek h fun _ o₁ q₁ h₁ _ _ => ?_)
  split
  · exact Shadow.bind (runs_parseSymbol h₁ fun id o₂ q₂ h₂ hid => runs_designator hself h₂ hid hQ)
  · exact runs_parseInsertOrSingleton h₁ hQ
  · exact runs_parseInsertOrSingleton h₁ hQ
  · exact Shadow.bind (runs_parseConstructor h₁ fun id o₂ q₂ h₂ hid =>
      runs_designator hself h₂ hid hQ)
  · exact runs_parseLiteral h₁ hQ
  · exact runs_raise h₁ (by decide)

/-! ### Expressions -/

/-- An operand. -/
theorem runs_parsePrimary (hself : TwinProductions P self self') {n : Nat}
    (h : Good P noNode ids o q) {Q : NodeId → Option (Parser L) → Parser L' → Prop}
    (hQ : ∀ id o' q', Good P noNode (id :: ids) o' q' → Q id o' q') :
    P.Runs (parsePrimary n self) (parsePrimary n self') o q Q := by
  refine Shadow.bind (runs_peek h fun tok o₁ q₁ h₁ hs hahead => ?_)
  refine Shadow.ite (fun _ => ?_) fun _ => Shadow.ite (fun _ => ?_) fun _ =>
    Shadow.ite (fun _ => ?_) fun _ => runs_parseAtom hself h₁ hQ
  · refine Shadow.bind (runs_take h₁ hahead fun o₂ q₂ h₂ _ => ?_)
    refine Shadow.bind ((hself.expr 1 h₂).mono fun node o₃ q₃ h₃ => ?_)
    exact Shadow.bind (runs_expect h₃ fun _ o₄ q₄ h₄ _ =>
      Shadow.pure (hQ node o₄ q₄ h₄))
  · refine Shadow.bind (runs_take h₁ hahead fun o₂ q₂ h₂ hs => ?_)
    refine Shadow.bind ((hself.primary h₂).mono fun expr o₃ q₃ h₃ => ?_)
    refine runs_newNode h₃ (stores_value hs) fun node o₄ q₄ h₄ => ?_
    refine runs_append h₄ List.mem_cons_self (by simp) fun o₅ q₅ h₅ => ?_
    exact Shadow.pure (hQ node o₅ q₅ (h₅.subset (List.cons_subset_cons node
      (List.subset_cons_self expr ids))))
  · exact runs_raise h₁ (by decide)

/-- One turn of the loop over binary operators. -/
theorem runs_parseBinop (hself : TwinProductions P self self') {m : Nat} {lhs : NodeId}
    (h : Good P noNode (lhs :: ids) o q) :
    P.Runs (parseBinop self m lhs) (parseBinop self' m lhs) o q fun
      | .done id, o', q' => Good P noNode (id :: ids) o' q'
      | .yield id, o', q' => Good P noNode (id :: ids) o' q' := by
  refine Shadow.bind (runs_peek h fun tok o₁ q₁ h₁ _ hahead => ?_)
  refine Shadow.ite (fun _ => Shadow.ite (fun _ => Shadow.pure h₁) fun _ => ?_)
    fun _ => Shadow.pure h₁
  refine Shadow.bind (runs_take h₁ hahead fun o₂ q₂ h₂ hs => ?_)
  refine Shadow.bind ((hself.expr _ h₂).mono fun rhs o₃ q₃ h₃ => ?_)
  refine runs_newNode h₃ (stores_value hs) fun node o₄ q₄ h₄ => ?_
  refine runs_append h₄ List.mem_cons_self (by simp) fun o₅ q₅ h₅ => ?_
  refine runs_append h₅ List.mem_cons_self (by simp) fun o₆ q₆ h₆ => Shadow.pure ?_
  exact h₆.subset (List.cons_subset_cons node (List.Subset.trans (List.subset_cons_self lhs ids)
    (List.subset_cons_self rhs _)))

/-- An expression. -/
theorem runs_parseExpr (hself : TwinProductions P self self') {n m : Nat}
    (h : Good P noNode ids o q) {Q : NodeId → Option (Parser L) → Parser L' → Prop}
    (hQ : ∀ id o' q', Good P noNode (id :: ids) o' q' → Q id o' q') :
    P.Runs (parseExpr n self m) (parseExpr n self' m) o q Q := by
  refine Shadow.bind (runs_parsePrimary hself h fun lhs o₁ q₁ h₁ => ?_)
  refine Shadow.mono (Shadow.loop (I := fun id => Good P noNode (id :: ids))
    (Q := fun id => Good P noNode (id :: ids)) (fun id o q h => ?_) n lhs o₁ q₁ h₁) hQ
  exact (runs_parseBinop hself h).mono fun r _ _ hr => by cases r <;> exact hr

/-! ### Statements -/

/-- A declaration of a variable. -/
theorem runs_parseVardecl (hself : TwinProductions P self self') (h : Good P noNode ids o q)
    {Q : NodeId → Option (Parser L) → Parser L' → Prop}
    (hQ : ∀ id o' q', Good P noNode (id :: ids) o' q' → Q id o' q') :
    P.Runs (parseVardecl self) (parseVardecl self') o q Q := by
  refine Shadow.bind (runs_expect h fun _ o₁ q₁ h₁ _ => ?_)
  refine Shadow.bind (runs_expect h₁ fun ident o₂ q₂ h₂ hs => ?_)
  refine Shadow.bind (runs_tryParseVartype h₂ fun type o₃ q₃ h₃ => ?_)
  refine Shadow.bind (runs_expect h₃ fun _ o₄ q₄ h₄ _ => ?_)
  refine Shadow.bind ((hself.expr 0 h₄).mono fun expr o₅ q₅ h₅ => ?_)
  refine runs_newNode h₅ (stores_value hs) fun node o₆ q₆ h₆ => ?_
  refine runs_append h₆ List.mem_cons_self (by simp) fun o₇ q₇ h₇ => ?_
  exact Shadow.pure (hQ node o₇ q₇ (h₇.subset (List.cons_subset_cons node
    (List.subset_cons_self expr ids))))

/-- The loop over the statements below `parent`. The statements that begin with an idle token are
the last ones that either run reads. -/
theorem runs_parseBody (hself : TwinProductions P self self') (hc : Idles self)
    (hc' : Idles self') {stop : List TokenType} (hstop : ∀ t ∈ idleTokens, t ∉ stop)
    {parent : NodeId} (hparent : parent ∈ ids) : ∀ (n : Nat) {o : Option (Parser L)}
      {q : Parser L'}, Good P noNode ids o q →
      P.Runs (loop (parseBodyStmt self stop parent) n ())
        (loop (parseBodyStmt self' stop parent) n ()) o q fun _ => Good P noNode ids := by
  intro n
  induction n with
  | zero =>
      intro o q _
      exact Shadow.diverge
  | succ n ih =>
      intro o q h
      rw [loop_succ, loop_succ]
      refine Shadow.bind (Shadow.bind (runs_peek h fun tok o₁ q₁ h₁ _ _ => ?_))
      refine Shadow.ite (fun _ => Shadow.pure (Shadow.pure h₁)) fun _ => ?_
      refine Shadow.bind ((hself.stmt h₁).mono fun r o₂ q₂ h₂ => ?_)
      cases r with
      | some id =>
          refine Shadow.reads fun _ _ _ => ?_
          refine runs_append (c := id) h₂ (List.mem_cons_of_mem _ hparent)
            List.mem_cons_self fun o₃ q₃ h₃ => ?_
          exact Shadow.pure (ih (h₃.subset (List.subset_cons_self id ids)))
      | none =>
          -- both loops find the token again, and again
          obtain ⟨tok, hidle, ⟨rs, hreads, hhead⟩, hshadow⟩ := h₂
          refine Shadow.reads fun _ _ _ => Shadow.bind (Shadow.modify (Shadow.pure ?_))
          refine Shadow.of_none ?_ ?_
          · exact bodyLoop_idle hc' hhead.lookahead hidle (hstop _ hidle) n ⟨hreads, rfl⟩
          · intro p' hp'
            obtain ⟨p, hp, rfl⟩ := Option.map_eq_some_iff.mp hp'
            obtain ⟨rs, hreads, hhead⟩ := hshadow p hp
            exact bodyLoop_idle hc hhead.lookahead hidle (hstop _ hidle) n ⟨hreads, rfl⟩

/-- The body of a branch. -/
theorem runs_parseAndAppendIfBody {n : Nat} (hself : TwinProductions P self self')
    (hc : Idles self) (hc' : Idles self') {node : NodeId} (h : Good P noNode ids o q)
    (hnode : node ∈ ids) {Q : Unit → Option (Parser L) → Parser L' → Prop}
    (hQ : ∀ o' q', Good P noNode ids o' q' → Q () o' q') :
    P.Runs (parseAndAppendIfBody n self node) (parseAndAppendIfBody n self' node) o q Q := by
  refine Shadow.bind (runs_addCompound h hnode fun body o₁ q₁ h₁ => ?_)
  refine (runs_parseBody hself hc hc' (by decide) List.mem_cons_self n h₁).mono fun _ o₂ q₂ h₂ => ?_
  exact hQ o₂ q₂ (h₂.subset (List.subset_cons_self body ids))

/-- The condition and the body of a branch. -/
theorem runs_parseBranch {n : Nat} (hself : TwinProductions P self self')
    (hc : Idles self) (hc' : Idles self') {node : NodeId} (h : Good P noNode ids o q)
    (hnode : node ∈ ids) {Q : Unit → Option (Parser L) → Parser L' → Prop}
    (hQ : ∀ o' q', Good P noNode ids o' q' → Q () o' q') :
    P.Runs (parseBranch n self node) (parseBranch n self' node) o q Q := by
  refine runs_appendExpr hself h hnode fun o₁ q₁ h₁ => ?_
  refine Shadow.bind (runs_expect h₁ fun _ o₂ q₂ h₂ _ => ?_)
  exact runs_parseAndAppendIfBody hself hc hc' h₂ hnode hQ

/-- The further branches. The induction is on the fuel. -/
theorem runs_parseElifs {n : Nat} (hself : TwinProductions P self self')
    (hc : Idles self) (hc' : Idles self') {node : NodeId} (h : Good P noNode ids o q)
    (hnode : node ∈ ids) :
    P.Runs (loop (parseElif n self node) n ()) (loop (parseElif n self' node) n ()) o q
      fun _ => Good P noNode ids := by
  refine Shadow.loop (I := fun _ => Good P noNode ids) (fun _ o q h => ?_) n () o q h
  refine Shadow.bind (runs_accept h (fun _ o₁ q₁ h₁ _ => ?_)
    fun o₁ q₁ h₁ => Shadow.pure h₁)
  exact Shadow.bind (runs_parseBranch hself hc hc' h₁ hnode fun o₂ q₂ h₂ => Shadow.pure h₂)

/-- The last branch. -/
theorem runs_parseElse {n : Nat} (hself : TwinProductions P self self')
    (hc : Idles self) (hc' : Idles self') {node : NodeId} (h : Good P noNode ids o q)
    (hnode : node ∈ ids) {Q : Unit → Option (Parser L) → Parser L' → Prop}
    (hQ : ∀ o' q', Good P noNode ids o' q' → Q () o' q') :
    P.Runs (parseElse n self node) (parseElse n self' node) o q Q := by
  refine Shadow.bind (runs_accept h (fun _ o₁ q₁ h₁ _ => ?_)
    fun o₁ q₁ h₁ => Shadow.pure (hQ o₁ q₁ h₁))
  exact runs_parseAndAppendIfBody hself hc hc' h₁ hnode hQ

/-- A conditional. -/
theorem runs_parseIfStmt {n : Nat} (hself : TwinProductions P self self')
    (hc : Idles self) (hc' : Idles self') (h : Good P noNode ids o q)
    {Q : NodeId → Option (Parser L) → Parser L' → Prop}
    (hQ : ∀ id o' q', Good P noNode (id :: ids) o' q' → Q id o' q') :
    P.Runs (parseIfStmt n self) (parseIfStmt n self') o q Q := by
  refine Shadow.bind (runs_expect h fun tok o₁ q₁ h₁ _ => ?_)
  refine runs_newNode h₁ (stores_span rfl rfl) fun node o₂ q₂ h₂ => ?_
  refine Shadow.bind (runs_parseBranch hself hc hc' h₂ List.mem_cons_self fun o₃ q₃ h₃ => ?_)
  refine Shadow.bind ((runs_parseElifs hself hc hc' h₃ List.mem_cons_self).mono
    fun _ o₄ q₄ h₄ => ?_)
  refine Shadow.bind (runs_parseElse hself hc hc' h₄ List.mem_cons_self fun o₅ q₅ h₅ => ?_)
  exact Shadow.bind (runs_expect h₅ fun _ o₆ q₆ h₆ _ => Shadow.pure (hQ node o₆ q₆ h₆))

/-- An assignment. -/
theorem runs_parseAssignStmt (hself : TwinProductions P self self') {ident : NodeId}
    (h : Good P noNode ids o q) (hident : ident ∈ ids)
    {Q : NodeId → Option (Parser L) → Parser L' → Prop}
    (hQ : ∀ id o' q', Good P noNode (id :: ids) o' q' → Q id o' q') :
    P.Runs (parseAssignStmt self ident) (parseAssignStmt self' ident) o q Q := by
  refine Shadow.bind (runs_expect h fun tok o₁ q₁ h₁ _ => ?_)
  refine Shadow.bind ((hself.expr 0 h₁).mono fun expr o₂ q₂ h₂ => ?_)
  refine runs_newNode h₂ (stores_span rfl rfl) fun node o₃ q₃ h₃ => ?_
  refine runs_append h₃ List.mem_cons_self (by simp [hident]) fun o₄ q₄ h₄ => ?_
  refine runs_append h₄ List.mem_cons_self (by simp) fun o₅ q₅ h₅ => ?_
  exact Shadow.pure (hQ node o₅ q₅ (h₅.subset (List.cons_subset_cons node
    (List.subset_cons_self expr ids))))

/-- A loop. -/
theorem runs_parseWhileStmt {n : Nat} (hself : TwinProductions P self self')
    (hc : Idles self) (hc' : Idles self') (h : Good P noNode ids o q)
    {Q : NodeId → Option (Parser L) → Parser L' → Prop}
    (hQ : ∀ id o' q', Good P noNode (id :: ids) o' q' → Q id o' q') :
    P.Runs (parseWhileStmt n self) (parseWhileStmt n self') o q Q := by
  refine Shadow.bind (runs_expect h fun tok o₁ q₁ h₁ _ => ?_)
  refine Shadow.bind ((hself.expr 0 h₁).mono fun expr o₂ q₂ h₂ => ?_)
  refine runs_newNode h₂ (stores_span rfl rfl) fun node o₃ q₃ h₃ => ?_
  refine runs_append h₃ List.mem_cons_self (by simp) fun o₄ q₄ h₄ => ?_
  refine Shadow.bind (runs_expect h₄ fun _ o₅ q₅ h₅ _ => ?_)
  refine Shadow.bind (runs_addCompound h₅ List.mem_cons_self fun body o₆ q₆ h₆ => ?_)
  refine Shadow.bind ((runs_parseBody hself hc hc' (by decide) List.mem_cons_self n h₆).mono
    fun _ o₇ q₇ h₇ => ?_)
  refine Shadow.bind (runs_expect h₇ fun _ o₈ q₈ h₈ _ => Shadow.pure (hQ node o₈ q₈ ?_))
  exact (h₈.subset (List.subset_cons_self body _)).subset (List.cons_subset_cons node
    (List.subset_cons_self expr ids))

/-- One parameter of a function. -/
theorem runs_parseArgdecl {node : NodeId} (h : Good P noNode ids o q) (hnode : node ∈ ids) :
    P.Runs (parseArgdecl node ()) (parseArgdecl node ()) o q fun _ => Good P noNode ids := by
  refine Shadow.bind (runs_expect h fun tok o₁ q₁ h₁ hs => ?_)
  refine Shadow.bind (runs_parseVartype h₁ fun type o₂ q₂ h₂ => ?_)
  refine runs_newNode h₂ (stores_value hs) fun arg o₃ q₃ h₃ => ?_
  refine runs_append h₃ (List.mem_cons_of_mem _ hnode) List.mem_cons_self fun o₄ q₄ h₄ => ?_
  have hsub := List.subset_cons_self arg ids
  exact Shadow.bind (runs_accept h₄ (fun _ o₅ q₅ h₅ _ => Shadow.pure (h₅.subset hsub))
    fun o₅ q₅ h₅ => Shadow.pure (h₅.subset hsub))

/-- The parameters of a function. -/
theorem runs_parseArgdecls {n : Nat} {node : NodeId} (h : Good P noNode ids o q)
    (hnode : node ∈ ids) {Q : Unit → Option (Parser L) → Parser L' → Prop}
    (hQ : ∀ o' q', Good P noNode ids o' q' → Q () o' q') :
    P.Runs (parseArgdecls n node) (parseArgdecls n node) o q Q := by
  refine Shadow.bind (runs_peek h fun tok o₁ q₁ h₁ _ _ => ?_)
  refine Shadow.ite (fun _ => ?_) fun _ => Shadow.pure (hQ o₁ q₁ h₁)
  refine Shadow.mono (Shadow.loop (I := fun _ => Good P noNode ids)
    (Q := fun _ => Good P noNode ids) (fun _ o q h => ?_) n () o₁ q₁ h₁) fun _ => hQ
  exact (runs_parseArgdecl h hnode).mono fun r _ _ hr => by cases r <;> exact hr

/-- The return type is stored into the value of the function. -/
theorem revalues_setReturnType (type : Vartype) : Revalues (setReturnType type) := by
  refine ⟨fun n => ?_, fun n => ?_, fun n => ?_, fun n m hnm => ?_⟩
  all_goals unfold setReturnType
  · split <;> rfl
  · split <;> rfl
  · split <;> rfl
  · rw [hnm]
    split
    · rfl
    · exact hnm

/-- The type of a function. -/
theorem runs_parseReturnType {node : NodeId} (h : Good P noNode ids o q) (hnode : node ∈ ids)
    {Q : Unit → Option (Parser L) → Parser L' → Prop}
    (hQ : ∀ o' q', Good P noNode ids o' q' → Q () o' q') :
    P.Runs (parseReturnType node) (parseReturnType node) o q Q := by
  refine Shadow.bind (runs_tryParseVartype h fun type o₁ q₁ h₁ => ?_)
  refine Shadow.ite (fun _ => ?_) fun _ => Shadow.pure (hQ o₁ q₁ h₁)
  exact runs_revalue h₁ hnode (revalues_setReturnType type.1) hQ

/-- A function. -/
theorem runs_parseFundecl {n : Nat} (hself : TwinProductions P self self')
    (hc : Idles self) (hc' : Idles self') {exported : Bool} (h : Good P noNode ids o q)
    {Q : NodeId → Option (Parser L) → Parser L' → Prop}
    (hQ : ∀ id o' q', Good P noNode (id :: ids) o' q' → Q id o' q') :
    P.Runs (parseFundecl n self exported) (parseFundecl n self' exported) o q Q := by
  refine Shadow.bind (runs_expect h fun _ o₁ q₁ h₁ _ => ?_)
  refine Shadow.bind (runs_expect h₁ fun tok o₂ q₂ h₂ hs => ?_)
  refine runs_newNode h₂ (stores_value hs) fun node o₃ q₃ h₃ => ?_
  refine Shadow.bind (runs_expect h₃ fun _ o₄ q₄ h₄ _ => ?_)
  refine Shadow.bind (runs_parseArgdecls h₄ List.mem_cons_self fun o₅ q₅ h₅ => ?_)
  refine Shadow.bind (runs_expect h₅ fun _ o₆ q₆ h₆ _ => ?_)
  refine Shadow.bind (runs_parseReturnType h₆ List.mem_cons_self fun o₇ q₇ h₇ => ?_)
  refine Shadow.bind (runs_addCompound h₇ List.mem_cons_self fun body o₈ q₈ h₈ => ?_)
  refine Shadow.bind ((runs_parseBody hself hc hc' (by decide) List.mem_cons_self n h₈).mono
    fun _ o₉ q₉ h₉ => ?_)
  exact Shadow.bind (runs_expect h₉ fun _ o' q' h' _ => Shadow.pure (hQ node o' q'
    (h'.subset (List.subset_cons_self body _))))

/-- A return. -/
theorem runs_parseReturnStmt (hself : TwinProductions P self self') (h : Good P noNode ids o q)
    {Q : NodeId → Option (Parser L) → Parser L' → Prop}
    (hQ : ∀ id o' q', Good P noNode (id :: ids) o' q' → Q id o' q') :
    P.Runs (parseReturnStmt self) (parseReturnStmt self') o q Q := by
  refine Shadow.bind (runs_expect h fun tok o₁ q₁ h₁ _ => ?_)
  refine Shadow.bind ((hself.expr 0 h₁).mono fun expr o₂ q₂ h₂ => ?_)
  refine runs_newNode h₂ (stores_span rfl rfl) fun node o₃ q₃ h₃ => ?_
  refine runs_append h₃ List.mem_cons_self (by simp) fun o₄ q₄ h₄ => ?_
  exact Shadow.pure (hQ node o₄ q₄ (h₄.subset (List.cons_subset_cons node
    (List.subset_cons_self expr ids))))

/-- What begins with a name. -/
theorem runs_parseIdentStmt (hself : TwinProductions P self self') {n : Nat}
    (h : Good P noNode ids o q) {Q : NodeId → Option (Parser L) → Parser L' → Prop}
    (hQ : ∀ id o' q', Good P noNode (id :: ids) o' q' → Q id o' q') :
    P.Runs (parseIdentStmt n self) (parseIdentStmt n self') o q Q := by
  refine Shadow.bind (runs_parseSymbol h fun head o₁ q₁ h₁ hhead => ?_)
  refine Shadow.bind (runs_tryParseMemberChain h₁ List.mem_cons_self hhead fun ident o₂ q₂ h₂ => ?_)
  refine Shadow.bind (runs_peek h₂ fun tok o₃ q₃ h₃ hs _ => ?_)
  have hQ' : ∀ id o' q', Good P noNode (id :: ident :: head :: ids) o' q' → Q id o' q' :=
    fun id o' q' h' => hQ id o' q' (h'.subset (List.cons_subset_cons id (List.Subset.trans
      (List.subset_cons_self head ids) (List.subset_cons_self ident _))))
  refine Shadow.ite (fun _ => runs_parseAssignStmt hself h₃ List.mem_cons_self hQ') fun _ =>
    Shadow.ite (fun _ => runs_parseCall hself h₃ List.mem_cons_self hQ') fun _ => ?_
  exact runs_raise h₃ (by decide)

/-- A statement. One that begins with an idle token returns no node. -/
theorem runs_parseStmt {n : Nat} (hself : TwinProductions P self self')
    (hc : Idles self) (hc' : Idles self') (h : Good P noNode ids o q) :
    P.Runs (parseStmt n self) (parseStmt n self') o q fun
      | some id, o', q' => Good P noNode (id :: ids) o' q'
      | none, o', q' => ∃ tok, tok.type ∈ idleTokens ∧ Ahead tok o' q' := by
  refine Shadow.bind (runs_peek h fun tok o₁ q₁ h₁ hs hahead => ?_)
  -- an idle token is not read, and so it is still ahead of both runs
  have hidle : ∀ {t : TokenType}, tok.type = t → t ∈ idleTokens →
      ∃ tok : Token, tok.type ∈ idleTokens ∧ Ahead tok o₁ q₁ := fun ht hmem =>
    ⟨tok, ht ▸ hmem, hahead⟩
  split
  · exact Shadow.map (runs_parseVardecl hself h₁ fun _ _ _ h' => h')
  · rename_i ht
    exact Shadow.pure (hidle ht (by decide))
  · exact Shadow.map (runs_parseFundecl hself hc hc' h₁ fun _ _ _ h' => h')
  · exact Shadow.map (runs_parseReturnStmt hself h₁ fun _ _ _ h' => h')
  · exact Shadow.map (runs_parseIfStmt hself hc hc' h₁ fun _ _ _ h' => h')
  · rename_i ht
    exact Shadow.pure (hidle ht (by decide))
  · exact Shadow.map (runs_parseWhileStmt hself hc hc' h₁ fun _ _ _ h' => h')
  · rename_i ht
    exact Shadow.pure (hidle ht (by decide))
  · rename_i ht
    exact Shadow.pure (hidle ht (by decide))
  · exact Shadow.map (runs_parseIdentStmt hself h₁ fun _ _ _ h' => h')
  · exact runs_raise h₁ (by decide)

/-! ### The module -/

/-- The productions side by side, at every level of fuel. -/
theorem twinProductions : ∀ n : Nat,
    TwinProductions P (productions n : Productions L) (productions n : Productions L') := by
  intro n
  induction n with
  | zero => exact ⟨fun _ _ => Shadow.diverge, fun _ => Shadow.diverge, fun _ => Shadow.diverge⟩
  | succ n ih =>
      exact ⟨fun _ h => runs_parseExpr ih h fun _ _ _ h' => h',
        fun h => runs_parsePrimary ih h fun _ _ _ h' => h',
        fun h => runs_parseStmt ih (correct n).idle (correct n).idle h⟩

section
omit [LawfulTokenSource L]

/-- The second loop of `nulang__parse` and what comes after it, one turn unrolled. -/
theorem moduleLoop_succ {α : Type} {self : Productions L} {k : ParserM L α} (n : Nat)
    (stmt : NodeId) :
    (loop (parseModuleStmt self) (n + 1) stmt >>= fun _ => k) = parserPeek 0 >>= fun tok =>
      if tok.type = .tokenEof then k
      else self.parseStmt >>= fun node => Prog.gets (·.ast.root) >>= fun root =>
        parserAppendChild root (node.getD stmt) >>= fun _ =>
          loop (parseModuleStmt self) n (node.getD stmt) >>= fun _ => k := by
  rw [loop_succ, bind_assoc]
  unfold parseModuleStmt
  rw [bind_assoc]
  congr 1
  funext tok
  split
  · rfl
  · rw [bind_assoc]
    rfl

end

/-- The second loop of `nulang__parse`. The local `stmt` may start with another value in the
shadow: the first statement overwrites it, or neither run comes to an end. -/
theorem runs_parseModule {α : Type} (hself : TwinProductions P self self')
    (hc : Idles self) (hc' : Idles self') {k : ParserM L α} {k' : ParserM L' α}
    {Q : α → Option (Parser L) → Parser L' → Prop}
    (hk : ∀ o' q', Good P noNode [] o' q' → P.Runs k k' o' q' Q) :
    ∀ (n : Nat) (stmt stmt' : NodeId) {o : Option (Parser L)} {q : Parser L'},
      Good P noNode [] o q →
      P.Runs (loop (parseModuleStmt self) n stmt >>= fun _ => k)
        (loop (parseModuleStmt self') n stmt' >>= fun _ => k') o q Q := by
  -- both loops turn together while the shadow lives; the main parser may go on without it
  intro n
  induction n with
  | zero =>
      intro stmt stmt' o q _
      exact Shadow.of_none rfl fun _ _ => rfl
  | succ n ih =>
      intro stmt stmt' o q h
      rw [moduleLoop_succ, moduleLoop_succ]
      refine Shadow.bind (runs_peek h fun tok o₁ q₁ h₁ _ _ => ?_)
      refine Shadow.ite (fun _ => hk o₁ q₁ h₁) fun _ => ?_
      refine Shadow.bind ((hself.stmt h₁).mono fun r o₂ q₂ h₂ => ?_)
      refine Shadow.reads fun root hsome hnone => ?_
      cases r with
      | some id =>
          -- the root is read before the statement is added, and is the same in both parsers
          have hroot : root = q₂.ast.root := by
            rcases o₂ with _ | p
            · exact hnone rfl
            · rw [hsome p rfl, (h₂.beside p rfl).room.root, h₂.room.root]
          have hpos : q₂.ast.root < q₂.ast.nodeCount := h₂.room.root ▸ h₂.room.pos
          rw [hroot]
          refine Shadow.bind (runs_appendChild h₂ hpos (h₂.lt List.mem_cons_self)
            fun o₃ q₃ h₃ => ?_)
          exact ih id id (h₃.subset (List.nil_subset _))
      -- an idle statement: the loop of each parser stays where it is and does not end
      | none =>
          obtain ⟨tok, hidle, ⟨rs, hreads, hhead⟩, hshadow⟩ := h₂
          refine Shadow.bind (Shadow.modify (Shadow.of_none (bind_run_none ?_) ?_))
          · exact moduleLoop_idle hc' hhead.lookahead hidle n _ ⟨hreads, rfl⟩
          · intro p' hp'
            obtain ⟨p, hp, rfl⟩ := Option.map_eq_some_iff.mp hp'
            obtain ⟨rs, hreads, hhead⟩ := hshadow p hp
            exact bind_run_none (moduleLoop_idle hc hhead.lookahead hidle n _ ⟨hreads, rfl⟩)

/-- `nulang__parse`. -/
theorem runs_parse (fuel : Nat) (h : Good P noNode [] o q) :
    P.Runs (parse fuel) (parse fuel) o q fun _ => Good P noNode [] := by
  have hheader : P.Runs (loop parseHeader fuel ()) (loop parseHeader fuel ()) o q
      fun _ => Good P noNode [] := by
    refine Shadow.loop (I := fun _ => Good P noNode []) (fun _ o q h => ?_) fuel () o q h
    refine Shadow.bind (runs_peek h fun tok o₁ q₁ h₁ _ _ => ?_)
    exact Shadow.ite (fun _ => Shadow.pure h₁) fun _ =>
      Shadow.ite (fun _ => Shadow.pure h₁) fun _ => Shadow.pure h₁
  refine Shadow.bind (hheader.mono fun _ o₁ q₁ h₁ => Shadow.reads fun stmt _ _ => ?_)
  refine runs_parseModule (twinProductions fuel) (correct fuel).idle (correct fuel).idle
    (fun o₂ q₂ h₂ => ?_) fuel stmt q₁.uninit h₁
  exact Shadow.bind (runs_expect h₂ fun _ o₃ q₃ h₃ _ => Shadow.pure h₃)

end Nucleus.Proofs
