import Nucleus.Proofs.Arena
import Nucleus.Proofs.Derivations
import Nucleus.Proofs.Tokens

/-!
# `Nucleus.Proofs.Expressions`: the expression productions

Each production of `nulang__parse_expr` and below it meets the grammar: if it succeeds, the
results it read are derived, the arena owns the tree of the derivation, and only the nodes of
that tree were written. `CorrectExpr self` is the hypothesis about the forward-declared productions.
-/

set_option autoImplicit false

namespace Nucleus.Proofs

open Nucleus.Lib
open Nucleus.Lib.Prog
open Nucleus.Lang
open Nucleus.Spec

/-- What a production returns: the root of a tree that the production derives and the arena
owns, built from the nodes `o` and new ones. -/
def Result {L : Type} [TokenSource L] [LawfulTokenSource L] (c : Cat) (rs : List LexResult)
    (a : Ast) (o : List Nat) (id : NodeId) (p' : Parser L) : Prop :=
  ∃ k cs rs' b, At p' rs' b ∧ Builds a b o (.tree (id, k) cs) ∧
    Derives c rs (.tree k (syn cs)) rs'

/-- The forward-declared expression productions meet the grammar. -/
structure CorrectExpr {L : Type} [TokenSource L] [LawfulTokenSource L] (callee : Productions L) :
    Prop where
  expr : ∀ (m : Nat) (p : Parser L) (rs : List LexResult) (a : Ast), At p rs a → a.Valid →
    Spec (callee.parseExpr m) p (Result (.expr m) rs a [])
  primary : ∀ (p : Parser L) (rs : List LexResult) (a : Ast), At p rs a → a.Valid →
    Spec callee.parsePrimary p (Result .primary rs a [])

/-- The kinds that a member chain and a call can start from. -/
def IsDesignator : Kind → Prop
  | .symref _ | .member _ | .builtin _ => True
  | _ => False

variable {L : Type} [TokenSource L] [LawfulTokenSource L]

/-! ### Types -/

/-- A type is read by its rule. -/
theorem parseVartype_spec {p : Parser L} {rs : List LexResult} {a : Ast}
    (h : At p rs a) {Q : Vartype → Parser L → Prop}
    (hQ : ∀ ty rs' p', DerivesType rs ty rs' → At p' rs' a → Q ty p') :
    Spec parseVartype p Q := by
  refine Spec.bind (parserExpect_spec h (by decide) ?_)
  rintro c rs₁ p₁ rfl hc h₁
  refine Spec.bind (parserAccept_spec h₁ (by decide) ?_ ?_)
  · rintro t rs₂ p₂ rfl ht h₂
    exact Spec.pure (hQ _ rs₂ p₂ (.primitive hc ht) h₂)
  · rintro t p₂ - - h₂
    refine Spec.bind (parserAccept_spec h₂ (by decide) ?_ ?_)
    · rintro t rs₃ p₃ rfl ht h₃
      exact Spec.pure (hQ _ rs₃ p₃ (.archetype hc ht) h₃)
    · rintro t p₃ - - h₃
      refine Spec.bind (parserConsume_spec h₃ fun tok p₄ _ h₄ => ?_)
      exact Spec.bind (report_spec h₄ fun p₅ _ => Spec.fail)

/-- An optional type is read by its rules, and the parser says which one it was. -/
theorem tryParseVartype_spec {p : Parser L} {rs : List LexResult} {a : Ast}
    (h : At p rs a) {Q : Vartype × Bool → Parser L → Prop}
    (hQ : ∀ ty found rs' p', DerivesTypeOpt rs ty rs' → (found = false → ty = noType) →
      At p' rs' a → Q (ty, found) p') :
    Spec tryParseVartype p Q := by
  refine Spec.bind (parserPeek_spec h fun tok p₁ hhead h₁ => ?_)
  split
  · refine Spec.bind (parseVartype_spec h₁ fun ty rs' p₂ hty h₂ => Spec.pure ?_)
    exact hQ ty true rs' p₂ (.present hty) (by simp) h₂
  · rename_i hcolon
    exact Spec.pure (hQ _ false rs p₁ (.absent hhead.lookahead hcolon) (fun _ => rfl) h₁)

/-! ### Symbols and member chains -/

/-- A name becomes a new node. -/
theorem parseSymbol_spec {p : Parser L} {rs : List LexResult} {a : Ast}
    (h : At p rs a) (hv : a.Valid) {Q : NodeId → Parser L → Prop}
    (hQ : ∀ i rs' id b p', rs = .ok i :: rs' → i.type = .tokenIdentifier → At p' rs' b →
      Builds a b [] (.leaf (id, .symref i.value.toIdentifier)) → Q id p') :
    Spec parseSymbol p Q := by
  refine Spec.bind (parserExpect_spec h (by decide) fun i rs' p₁ hrs hi h₁ => ?_)
  refine Spec.bind (parserAddNode_spec h₁ fun id b p₂ hadd h₂ => ?_)
  refine Spec.bind (setNode_spec h₂ fun p₃ h₃ => Spec.pure ?_)
  exact hQ i rs' id _ p₃ hrs hi h₃ (builds_add hv hadd (fun _ => rfl) fun _ => rfl)

/-- The member of a place is a node above it, and that of a primitive is its builtin function in the
same node. -/
theorem memberNode_spec {p : Parser L} {rs : List LexResult} {a : Ast}
    {child : NodeId} {tok : Token} {k : Kind} {cs : Located} (h : At p rs a) (hv : a.Valid)
    (hown : a.Owns (.tree (child, k) cs)) (hk : IsDesignator k) {Q : NodeId → Parser L → Prop}
    (hQ : ∀ id k' cs' b p', At p' rs b →
      Builds a b (ids (.tree (child, k) cs)).labels (.tree (id, k') cs') → IsDesignator k' →
      memberOf (.tree k (syn cs)) tok.value.toIdentifier = some (.tree k' (syn cs')) → Q id p') :
    Spec (memberNode child tok) p Q := by
  have hkind : (a.nodes child).kind = k := hown.kinds (child, k) (by simp)
  -- a member node above the child, for both kinds of child that get one
  have hmember : memberOf (.tree k (syn cs)) tok.value.toIdentifier =
        some (.tree (.member tok.value.toIdentifier) (.tree k (syn cs))) →
      Spec (parserAddNode >>= fun node =>
        setNode node (fun n => { n with
            span := tok.span, type := .astMember, value := .member tok.value.toIdentifier }) >>=
          fun _ => parserAppendChild node child >>= fun _ => pure node) p Q := by
    intro hmem
    refine Spec.bind (parserAddNode_spec h fun id b p₁ hadd h₁ => ?_)
    refine Spec.bind (setNode_spec h₁ fun p₂ h₂ => ?_)
    refine Spec.bind (parserAppendChild_spec h₂ fun p₃ h₃ => Spec.pure ?_)
    refine hQ id (.member tok.value.toIdentifier) (.tree (child, k) cs) _ p₃ h₃
      (Builds.wrap hadd (by exact fun _ => rfl) (by exact fun _ => rfl) (Builds.refl hv hown))
      trivial (by simpa using hmem)
  refine Spec.bind (Spec.gets ?_)
  rw [h.ast]
  cases k with
  | symref name =>
      have htype : (a.nodes child).type = .astSymref := Node.type_of_kind hkind (by simp)
      simp only [htype]
      exact hmember rfl
  | member name =>
      have htype : (a.nodes child).type = .astMember := Node.type_of_kind hkind (by simp)
      simp only [htype]
      exact hmember rfl
  | builtin bt =>
      have htype : (a.nodes child).type = .astBuiltin := Node.type_of_kind hkind (by simp)
      have hvalue := Node.value_of_kind_builtin hkind
      simp only [htype, hvalue]
      split
      · rename_i primitive heq
        obtain rfl : bt = .builtinConstructor primitive := by simpa using heq
        split
        · exact Spec.bind (report_spec h fun p₁ _ => Spec.fail)
        · rename_i function hfind
          refine Spec.bind (setNode_spec h fun p₁ h₁ => Spec.pure ?_)
          refine hQ child (.builtin (.builtinFunction function)) cs _ p₁ h₁
            (builds_relabel hv hown (fun _ => rfl) ?_) trivial ?_
          · unfold Node.kind
            simp only [htype]
          · simp [Forest.tree, memberOf, hfind]
      · exact Spec.bind (report_spec h fun p₁ _ => Spec.fail)
  | _ => exact absurd hk id

/-- A member chain at its dot. -/
theorem parseMemberChain_spec : ∀ (n : Nat) {p : Parser L} {rs : List LexResult} {a : Ast}
    {child : NodeId} {k : Kind} {cs : Located}, At p rs a → a.Valid →
    a.Owns (.tree (child, k) cs) → IsDesignator k →
    Spec (parseMemberChain n child) p fun id p' =>
      ∃ k' cs' rs' b, At p' rs' b ∧
        Builds a b (ids (.tree (child, k) cs)).labels (.tree (id, k') cs') ∧ IsDesignator k' ∧
        Derives (.chain (.tree k (syn cs))) rs (.tree k' (syn cs')) rs' := by
  intro n
  induction n with
  | zero => exact fun _ _ _ _ => Spec.diverge
  | succ n ih =>
      intro p rs a child k cs h hv hown hk
      refine Spec.bind (parserExpect_spec h (by decide) ?_)
      rintro d rs₁ p₁ rfl hd h₁
      refine Spec.bind (parserExpect_spec h₁ (by decide) ?_)
      rintro m rs₂ p₂ rfl hm h₂
      refine Spec.bind (memberNode_spec h₂ hv hown hk ?_)
      intro id k' cs' b p₃ h₃ hb hk' hmem
      refine Spec.bind (parserPeek_spec h₃ fun tok p₄ hhead h₄ => ?_)
      split
      · -- another dot follows, and the member is the owner of the next one
        refine (ih h₄ hb.valid hb.owns hk').mono ?_
        rintro id' p' ⟨k'', cs'', rs', b', h', hb', hk'', hder⟩
        exact ⟨k'', cs'', rs', b', h', hb.through hb', hk'', .chainDot hd hm hmem hder⟩
      · rename_i hdot
        exact Spec.pure ⟨k', cs', rs₂, b, h₄, hb, hk',
          .chainDot hd hm hmem (.chainEnd hhead.lookahead hdot)⟩

/-- The chain goes on behind a dot, and has ended otherwise. -/
theorem tryParseMemberChain_spec {n : Nat} {p : Parser L} {rs : List LexResult} {a : Ast}
    {node : NodeId} {k : Kind} {cs : Located} (h : At p rs a) (hv : a.Valid)
    (hown : a.Owns (.tree (node, k) cs)) (hk : IsDesignator k) :
    Spec (tryParseMemberChain n node) p fun id p' =>
      ∃ k' cs' rs' b, At p' rs' b ∧
        Builds a b (ids (.tree (node, k) cs)).labels (.tree (id, k') cs') ∧ IsDesignator k' ∧
        Derives (.chain (.tree k (syn cs))) rs (.tree k' (syn cs')) rs' := by
  refine Spec.bind (parserPeek_spec h fun tok p₁ hhead h₁ => ?_)
  split
  · exact parseMemberChain_spec n h₁ hv hown hk
  · rename_i hdot
    exact Spec.pure ⟨k, cs, rs, a, h₁, Builds.refl hv hown, hk,
      .chainEnd hhead.lookahead hdot⟩

/-! ### Calls -/

/-- The further arguments of a call, below a call node with the children `ds`. -/
theorem parseArgs_spec {self : Productions L} (hself : CorrectExpr self) {a₀ : Ast}
    {o : List Nat} {x : NodeId × Kind} :
    ∀ (n : Nat) {p : Parser L} {rs : List LexResult} {a : Ast} {ds : Located}, At p rs a →
      Builds a₀ a o (.tree x ds) →
      Spec (loop (parseNextArg self x.1) n ()) p fun _ p' =>
        ∃ as rs' b, At p' rs' b ∧ Builds a₀ b o (.tree x (ds ++ as)) ∧
          Derives .args rs (syn as) rs' := by
  intro n
  induction n with
  | zero => exact fun _ _ => Spec.diverge
  | succ n ih =>
      intro p rs a ds h hb
      rw [loop_succ]
      refine Spec.bind (Spec.bind (parserAccept_spec h (by decide) ?_ ?_))
      · rintro c rs₁ p₁ rfl hc h₁
        refine Spec.bind ((hself.expr 0 p₁ rs₁ a h₁ hb.valid).mono ?_)
        rintro id p₂ ⟨k, cs, rs₂, b, h₂, hb₂, hder⟩
        refine Spec.bind (parserAppendChild_spec h₂ fun p₃ h₃ => Spec.pure ?_)
        refine (ih h₃ (hb.call hb₂).append).mono ?_
        rintro - p' ⟨as, rs', b', h', hb', hargs⟩
        refine ⟨.tree (id, k) cs ++ as, rs', b', h', ?_, ?_⟩
        · rw [← Forest.append_assoc]
          exact hb'
        · rw [syn_append]
          exact .argsComma hc hder hargs
      · rintro t p₁ ht hcomma h₁
        refine Spec.pure (Spec.pure ⟨.nil, rs, a, h₁, ?_, .argsEnd ht hcomma⟩)
        rw [Forest.append_nil]
        exact hb

/-- Before a closing parenthesis there is no further argument. -/
theorem derives_args_of_rparen {rs rs' : List LexResult} {s : Syn} (h : Derives .args rs s rs')
    (ht : lookahead rs = some .tokenRparen) : s = .nil ∧ rs' = rs := by
  cases h with
  | argsEnd _ _ => exact ⟨rfl, rfl⟩
  | argsComma hc _ _ =>
      have : some _ = some TokenType.tokenRparen := ht
      rw [hc] at this
      cases this

/-- A call becomes a node above its designator and its arguments. -/
theorem parseCall_spec {n : Nat} {self : Productions L} (hself : CorrectExpr self)
    {p : Parser L} {rs : List LexResult} {a : Ast} {ident : NodeId} {k : Kind} {cs : Located}
    (h : At p rs a) (hv : a.Valid) (hown : a.Owns (.tree (ident, k) cs)) :
    Spec (parseCall n self ident) p
      (Result (.call (.tree k (syn cs))) rs a (ids (.tree (ident, k) cs)).labels) := by
  refine Spec.bind (parserAddNode_spec h fun id b p₁ hadd h₁ => ?_)
  refine Spec.bind (setNode_spec h₁ fun p₂ h₂ => ?_)
  refine Spec.bind (parserAppendChild_spec h₂ fun p₃ h₃ => ?_)
  -- the call is a new node, and the name becomes its only child
  have hcall : Builds a (appendChild (b.modifyNode id fun n => { n with type := .astCall }) id
      ident) (ids (.tree (ident, k) cs)).labels (.tree (id, .call) (.tree (ident, k) cs)) :=
    Builds.wrap hadd (by exact fun _ => rfl) (by exact fun _ => rfl) (Builds.refl hv hown)
  refine Spec.bind (parserExpect_spec h₃ (by decide) ?_)
  rintro l rs₁ p₄ rfl hl h₄
  refine Spec.bind (Spec.bind (parserPeek_spec h₄ fun tok p₅ hhead h₅ => ?_))
  split
  -- a first argument: it is the second child, and the loop reads the others behind it
  · rename_i hfirst
    refine Spec.bind ((hself.expr 0 p₅ rs₁ _ h₅ hcall.valid).mono ?_)
    rintro arg p₆ ⟨ka, as, rs₂, b₂, h₆, hb₂, hexpr⟩
    refine parserAppendChild_spec h₆ fun p₇ h₇ => ?_
    refine Spec.bind ((parseArgs_spec hself n h₇ (hcall.call hb₂).append).mono ?_)
    rintro - p₈ ⟨args, rs₃, b₃, h₈, hb₃, hargs⟩
    refine Spec.bind (parserExpect_spec h₈ (by decide) ?_)
    rintro r rs' p' rfl hr h'
    refine Spec.pure ⟨.call, _, rs', b₃, h', hb₃, ?_⟩
    rw [syn_append, syn_append, syn_tree, syn_tree, Forest.append_assoc]
    exact .callSome hl hhead.lookahead hfirst hexpr hargs hr
  · rename_i hfirst
    -- a closing parenthesis: the loop of the other arguments finds no comma and reads nothing
    rw [not_not] at hfirst
    refine Spec.pure (Spec.bind ((parseArgs_spec hself n h₅ hcall).mono ?_))
    rintro - p₈ ⟨args, rs₃, b₃, h₈, hb₃, hargs⟩
    obtain ⟨hnil, rfl⟩ := derives_args_of_rparen hargs (hhead.lookahead.trans (by rw [hfirst]))
    refine Spec.bind (parserExpect_spec h₈ (by decide) ?_)
    rintro r rs' p' rfl hr h'
    refine Spec.pure ⟨.call, _, rs', b₃, h', hb₃, ?_⟩
    rw [syn_append, hnil, Forest.append_nil, syn_tree]
    exact .callNone hl hr

/-- A parenthesis begins a call. -/
theorem tryParseCall_spec {n : Nat} {self : Productions L} (hself : CorrectExpr self)
    {p : Parser L} {rs : List LexResult} {a : Ast} {node : NodeId} {k : Kind} {cs : Located}
    (h : At p rs a) (hv : a.Valid) (hown : a.Owns (.tree (node, k) cs)) :
    Spec (tryParseCall n self node) p
      (Result (.callOpt (.tree k (syn cs))) rs a (ids (.tree (node, k) cs)).labels) := by
  refine Spec.bind (parserPeek_spec h fun tok p₁ hhead h₁ => ?_)
  split
  · refine (parseCall_spec hself h₁ hv hown).mono ?_
    rintro id p' ⟨k', cs', rs', b, h', hb, hder⟩
    exact ⟨k', cs', rs', b, h', hb, .callOptCall hder⟩
  · rename_i hlparen
    exact Spec.pure ⟨k, cs, rs, a, h₁, Builds.refl hv hown, .callOptEnd hhead.lookahead hlparen⟩

/-! ### Atoms -/

/-- The two constructions `insert(name)` and `singleton(name)`, with the token in the place of
the closing parenthesis skipped. -/
theorem parseInsertOrSingleton_spec {type : NodeType} {p : Parser L} {i : Token}
    {rs : List LexResult} {a : Ast} (h : At p (.ok i :: rs) a) (hv : a.Valid)
    (htype : type = .astInsert ∧ i.type = .tokenInsert ∨
      type = .astSingleton ∧ i.type = .tokenSingleton) :
    Spec (parseInsertOrSingleton type) p (Result .atom (.ok i :: rs) a []) := by
  refine Spec.bind (parserConsume_ok_spec h fun p₁ h₁ => ?_)
  refine Spec.bind (parserExpect_spec h₁ (by decide) ?_)
  rintro l rs₂ p₂ rfl hl h₂
  refine Spec.bind (parserExpect_spec h₂ (by decide) ?_)
  rintro n rs₃ p₃ rfl hn h₃
  refine Spec.bind (parserAddNode_spec h₃ fun id b p₄ hadd h₄ => ?_)
  refine Spec.bind (setNode_spec h₄ fun p₅ h₅ => ?_)
  refine Spec.bind (ignore_parserExpect_spec h₅ fun p₆ hcomes h₆ => Spec.pure ?_)
  rcases htype with ⟨rfl, hi⟩ | ⟨rfl, hi⟩
  · exact ⟨.insert n.value.toIdentifier, .nil, _, _, h₆,
      builds_add hv hadd (by exact fun _ => rfl) (by exact fun _ => rfl), .insert hi hl hn hcomes⟩
  · exact ⟨.singleton n.value.toIdentifier, .nil, _, _, h₆,
      builds_add hv hadd (by exact fun _ => rfl) (by exact fun _ => rfl),
      .singleton hi hl hn hcomes⟩

/-- A primitive becomes a new node. -/
theorem parseConstructor_spec {p : Parser L} {rs : List LexResult} {a : Ast}
    (h : At p rs a) (hv : a.Valid) {Q : NodeId → Parser L → Prop}
    (hQ : ∀ i rs' id b p', rs = .ok i :: rs' → i.type = .tokenPrimitive → At p' rs' b →
      Builds a b [] (.leaf (id, .builtin (.builtinConstructor i.value.toPrimitive))) → Q id p') :
    Spec parseConstructor p Q := by
  refine Spec.bind (parserExpect_spec h (by decide) fun i rs' p₁ hrs hi h₁ => ?_)
  refine Spec.bind (parserAddNode_spec h₁ fun id b p₂ hadd h₂ => ?_)
  refine Spec.bind (setNode_spec h₂ fun p₃ h₃ => Spec.pure ?_)
  exact hQ i rs' id _ p₃ hrs hi h₃ (builds_add hv hadd (fun _ => rfl) fun _ => rfl)

/-- A literal becomes a new node. -/
theorem parseLiteral_spec {p : Parser L} {i : Token} {rs : List LexResult} {a : Ast}
    (h : At p (.ok i :: rs) a) (hv : a.Valid) (hi : i.type = .tokenLiteral) :
    Spec parseLiteral p (Result .atom (.ok i :: rs) a []) := by
  refine Spec.bind (parserConsume_ok_spec h fun p₁ h₁ => ?_)
  refine Spec.bind (parserAddNode_spec h₁ fun id b p₂ hadd h₂ => ?_)
  refine Spec.bind (setNode_spec h₂ fun p₃ h₃ => Spec.pure ?_)
  exact ⟨.literal i.value.toLiteral, .nil, _, _, h₃,
    builds_add hv hadd (by exact fun _ => rfl) (by exact fun _ => rfl), .literal hi⟩

/-- The member chain and the call behind a symbol or a constructor. -/
theorem parseChainCall_spec {n : Nat} {self : Productions L} (hself : CorrectExpr self)
    {p : Parser L} {rs rs₀ : List LexResult} {a₀ a : Ast} {node : NodeId} {k : Kind}
    (h : At p rs a) (hb : Builds a₀ a [] (.leaf (node, k))) (hk : IsDesignator k)
    (hatom : ∀ {o s : Syn} {rs₁ rs' : List LexResult}, Derives (.chain (.leaf k)) rs o rs₁ →
      Derives (.callOpt o) rs₁ s rs' → Derives .atom rs₀ s rs') :
    Spec (tryParseMemberChain n node >>= tryParseCall n self) p
      (Result .atom rs₀ a₀ []) := by
  refine Spec.bind ((tryParseMemberChain_spec h hb.valid hb.owns hk).mono ?_)
  rintro node' p₁ ⟨k', cs', rs₁, b, h₁, hb₁, -, hchain⟩
  have hb' := hb.through hb₁
  refine (tryParseCall_spec hself h₁ hb'.valid hb'.owns).mono ?_
  rintro id p' ⟨k'', cs'', rs', b', h', hb₂, hcall⟩
  exact ⟨k'', cs'', rs', b', h', hb'.through hb₂, hatom hchain hcall⟩

/-- An atom is read by the rule of its first token. -/
theorem parseAtom_spec {n : Nat} {self : Productions L} (hself : CorrectExpr self)
    {p : Parser L} {rs : List LexResult} {a : Ast} (h : At p rs a) (hv : a.Valid) :
    Spec (parseAtom n self) p (Result .atom rs a []) := by
  refine Spec.bind (parserPeek_spec h fun tok p₁ hhead h₁ => ?_)
  have hcons : tok.type ≠ .tokenEof → ∃ rest, rs = .ok tok :: rest := hhead.of_ne_eof
  split
  · refine Spec.bind (parseSymbol_spec h₁ hv ?_)
    rintro i rs₂ id b p₂ rfl hi h₂ hb
    exact parseChainCall_spec hself h₂ hb trivial fun hchain hcall => .symbol hi hchain hcall
  · rename_i htype
    obtain ⟨rest, rfl⟩ := hcons (by rw [htype]; decide)
    exact parseInsertOrSingleton_spec h₁ hv (Or.inl ⟨rfl, htype⟩)
  · rename_i htype
    obtain ⟨rest, rfl⟩ := hcons (by rw [htype]; decide)
    exact parseInsertOrSingleton_spec h₁ hv (Or.inr ⟨rfl, htype⟩)
  · refine Spec.bind (parseConstructor_spec h₁ hv ?_)
    rintro i rs₂ id b p₂ rfl hi h₂ hb
    exact parseChainCall_spec hself h₂ hb trivial fun hchain hcall => .constructor hi hchain hcall
  · rename_i htype
    obtain ⟨rest, rfl⟩ := hcons (by rw [htype]; decide)
    exact parseLiteral_spec h₁ hv htype
  · exact Spec.bind (report_spec h₁ fun p₂ _ => Spec.fail)

/-! ### Expressions -/

/-- A primary expression is read by the rule of its first token. -/
theorem parsePrimary_spec {n : Nat} {self : Productions L} (hself : CorrectExpr self)
    {p : Parser L} {rs : List LexResult} {a : Ast} (h : At p rs a) (hv : a.Valid) :
    Spec (parsePrimary n self) p (Result .primary rs a []) := by
  refine Spec.bind (parserPeek_spec h fun tok p₁ hhead h₁ => ?_)
  split
  · rename_i hl
    obtain ⟨rest, rfl⟩ := hhead.of_ne_eof (by rw [hl]; decide)
    refine Spec.bind (parserConsume_ok_spec h₁ fun p₂ h₂ => ?_)
    refine Spec.bind ((hself.expr 1 p₂ rest a h₂ hv).mono ?_)
    rintro id p₃ ⟨k, cs, rs₃, b, h₃, hb, hexpr⟩
    refine Spec.bind (parserExpect_spec h₃ (by decide) ?_)
    rintro r rs' p' rfl hr h'
    exact Spec.pure ⟨k, cs, rs', b, h', hb, .paren hl hexpr hr⟩
  · split
    · rename_i hunop
      obtain ⟨rest, rfl⟩ := hhead.of_ne_eof (by
        intro heof
        rw [heof] at hunop
        exact absurd hunop (by decide))
      refine Spec.bind (parserConsume_ok_spec h₁ fun p₂ h₂ => ?_)
      refine Spec.bind ((hself.primary p₂ rest a h₂ hv).mono ?_)
      rintro expr p₃ ⟨k, cs, rs₃, b, h₃, hb, hprimary⟩
      refine Spec.bind (parserAddNode_spec h₃ fun id c p₄ hadd h₄ => ?_)
      refine Spec.bind (setNode_spec h₄ fun p₅ h₅ => ?_)
      refine Spec.bind (parserAppendChild_spec h₅ fun p₆ h₆ => Spec.pure ?_)
      exact ⟨.unop (unopFromToken tok.type), .tree (expr, k) cs, rs₃, _, h₆,
        Builds.wrap hadd (by exact fun _ => rfl) (by exact fun _ => rfl) hb,
        by rw [syn_tree]; exact .unop hunop hprimary⟩
    · split
      · -- a binary operator has no left operand here
        exact Spec.bind (report_spec h₁ fun p₂ _ => Spec.fail)
      · refine (parseAtom_spec hself h₁ hv).mono ?_
        rintro id p' ⟨k, cs, rs', b, h', hb, hatom⟩
        exact ⟨k, cs, rs', b, h', hb, .atom hatom⟩

/-- The test of the loop, turned round. -/
theorem continues_iff {m : Nat} {t : TokenType} (h : isBinop t = true) :
    Continues m t ↔ ¬ binopPrecedence t < m := by
  unfold Continues
  rw [not_lt]
  exact and_iff_right h

/-- The operator loop, with the left operand `lhs` in hand. -/
theorem parseClimb_spec {self : Productions L} (hself : CorrectExpr self) (m : Nat)
    {a₀ : Ast} : ∀ (n : Nat) {p : Parser L} {rs : List LexResult} {a : Ast} {lhs : NodeId}
      {k : Kind} {cs : Located}, At p rs a → Builds a₀ a [] (.tree (lhs, k) cs) →
      Spec (loop (parseBinop self m) n lhs) p
        fun id p' => ∃ k' cs' rs' b, At p' rs' b ∧ Builds a₀ b [] (.tree (id, k') cs') ∧
          Derives (.climb m (.tree k (syn cs))) rs (.tree k' (syn cs')) rs' := by
  intro n
  -- the invariant: what was read so far, from the first operand on, is the tree of `lhs`
  induction n with
  | zero => exact fun _ _ => Spec.diverge
  | succ n ih =>
      intro p rs a lhs k cs h hb
      rw [loop_succ]
      refine Spec.bind (Spec.bind (parserPeek_spec h fun tok p₁ hhead h₁ => ?_))
      split
      · rename_i hbinop
        split
        · rename_i hprec
          -- an operator that binds more loosely than the level is left for the caller
          refine Spec.pure (Spec.pure ⟨k, cs, rs, a, h₁, hb, .climbEnd hhead.lookahead ?_⟩)
          rw [continues_iff hbinop]
          exact not_not.mpr hprec
        · rename_i hprec
          obtain ⟨rest, rfl⟩ := hhead.of_ne_eof (by
            intro heof
            rw [heof] at hbinop
            exact absurd hbinop (by decide))
          refine Spec.bind (parserConsume_ok_spec h₁ fun p₂ h₂ => ?_)
          refine Spec.bind ((hself.expr _ p₂ rest a h₂ hb.valid).mono ?_)
          rintro rhs p₃ ⟨kr, csr, rs₃, b, h₃, hb₃, hexpr⟩
          -- the new node takes both operands, and is the left operand of what follows
          refine Spec.bind (parserAddNode_spec h₃ fun op c p₄ hadd h₄ => ?_)
          refine Spec.bind (setNode_spec h₄ fun p₅ h₅ => ?_)
          refine Spec.bind (parserAppendChild_spec h₅ fun p₆ h₆ => ?_)
          refine Spec.bind (parserAppendChild_spec h₆ fun p₇ h₇ => Spec.pure ?_)
          refine (ih (k := .binop (binopFromToken tok.type)) h₇ (Builds.wrapTwo (y := (lhs, k))
            (z := (rhs, kr)) hadd (by exact fun _ => rfl) (by exact fun _ => rfl)
            (hb.call hb₃))).mono ?_
          rintro id p' ⟨k', cs', rs', b', h', hb', hclimb⟩
          refine ⟨k', cs', rs', b', h', hb',
            .climbOp ((continues_iff hbinop).mpr hprec) hexpr ?_⟩
          simpa using hclimb
      · rename_i hbinop
        exact Spec.pure (Spec.pure ⟨k, cs, rs, a, h₁, hb,
          .climbEnd hhead.lookahead fun hcont => hbinop hcont.1⟩)

/-- An expression is an operand and what goes on with it. -/
theorem parseExpr_spec {n : Nat} {self : Productions L} (hself : CorrectExpr self) (m : Nat)
    {p : Parser L} {rs : List LexResult} {a : Ast} (h : At p rs a) (hv : a.Valid) :
    Spec (parseExpr n self m) p (Result (.expr m) rs a []) := by
  refine Spec.bind ((parsePrimary_spec hself h hv).mono ?_)
  rintro lhs p₁ ⟨k, cs, rs₁, b, h₁, hb, hprimary⟩
  refine (parseClimb_spec hself m n h₁ hb).mono ?_
  rintro id p' ⟨k', cs', rs', b', h', hb', hclimb⟩
  exact ⟨k', cs', rs', b', h', hb', .expr hprimary hclimb⟩

/-- The expression productions meet the grammar at every level of fuel. -/
theorem correctExpr : ∀ n : Nat, CorrectExpr (productions n : Productions L) := by
  intro n
  induction n with
  | zero => exact ⟨fun _ _ _ _ _ _ => Spec.diverge, fun _ _ _ _ _ => Spec.diverge⟩
  | succ n ih =>
      exact ⟨fun m p rs a h hv => parseExpr_spec ih m h hv,
        fun p rs a h hv => parsePrimary_spec ih h hv⟩

end Nucleus.Proofs
