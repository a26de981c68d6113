import Nucleus.Lib.Shadow
import Nucleus.Proofs.Arena
import Nucleus.Proofs.Tokens
import Nucleus.Spec.Alike

/-!
# `Nucleus.Proofs.Twins`: two runs of the parser side by side

A main run of the parser and its shadow, on arenas with other capacities and other memory. A
`Pair` is what they start from: two token sources that give the same results, and two arenas,
the shadow's not larger than the main one. The shadow stops when its arena is full
(`NULANG_ERROR_OUT_OF_NODE`), and from there on the main arena has more nodes than the shadow's
can hold.

`Good P fresh ids o q`: the main run is at `q` and the shadow at `o`, the arenas hold the same
nodes but for those in `fresh`, and the ids `ids` are allocated. Between two productions no node is
fresh. Every primitive step of the parser keeps the invariant, with one rule each.
-/

set_option autoImplicit false

namespace Nucleus.Lang

open Nucleus.Lib

/-- The types whose span a resolver reports. -/
def NodeType.hasSpan (t : NodeType) : Bool :=
  t ∈ [.astFundecl, .astArgdecl, .astVardecl, .astSymref, .astInsert, .astSingleton]

/-- The same nodes, with the same span, in `S`, where a resolver reports it. -/
structure Node.Twin (S : Span → Prop) (n m : Node) : Prop extends n.Same m where
  span : n.type.hasSpan = true → n.span = m.span ∧ S m.span

/-- The links of a node. -/
def Node.linksOf (n : Node) : Links := ⟨n.parent, n.firstChild, n.lastChild, n.nextSibling⟩

/-- No id, or an allocated one. -/
def Ast.Link (a : Ast) (id : Nat) : Prop := id = nodeNull ∨ id < a.nodeCount

/-- An arena with the root in place, whose free nodes have the content `memory`. -/
structure Ast.Room (limit : UInt32) (memory : NodeId → Node) (a : Ast) : Prop where
  root : a.root = 0
  capacity : a.nodeCapacity = limit
  pos : 0 < a.nodeCount
  le : a.nodeCount ≤ limit.toNat
  type : (a.nodes 0).type = .astModule
  untouched : ∀ i : Nat, a.nodeCount ≤ i → a.nodes i = memory i
  firstChild : ∀ i : Nat, i < a.nodeCount → a.Link (a.nodes i).firstChild
  lastChild : ∀ i : Nat, i < a.nodeCount → a.Link (a.nodes i).lastChild
  nextSibling : ∀ i : Nat, i < a.nodeCount → a.Link (a.nodes i).nextSibling

/-- Two arenas with the same nodes, where the nodes in `fresh` have the same links only. -/
structure Ast.Twins (S : Span → Prop) (fresh : NodeId → Prop) (a b : Ast) : Prop where
  count : a.nodeCount = b.nodeCount
  nodes : ∀ i : Nat, i < b.nodeCount → ¬ fresh i → (a.nodes i).Twin S (b.nodes i)
  links : ∀ i : Nat, i < b.nodeCount → fresh i → (a.nodes i).linksOf = (b.nodes i).linksOf

/-- What two productions store into a new node, `f` in the shadow and `g` in the main run: all
that a resolver reads of it, and no link. -/
structure Stores (S : Span → Prop) (f g : Node → Node) : Prop where
  links : ∀ n, (f n).linksOf = n.linksOf
  links' : ∀ n, (g n).linksOf = n.linksOf
  twin : ∀ n m : Node, n.linksOf = m.linksOf → (f n).Twin S (g m)

/-- A store that changes the value of a node only, and as a function of the value. -/
structure Revalues (f : Node → Node) : Prop where
  links : ∀ n, (f n).linksOf = n.linksOf
  type : ∀ n, (f n).type = n.type
  span : ∀ n, (f n).span = n.span
  value : ∀ n m : Node, n.value = m.value → (f n).value = (f m).value

/-- The arena with a new node. -/
def Ast.grown (a : Ast) : Ast :=
  { (a.modifyNode a.nodeCount Ast.unlinked) with nodeCount := a.nodeCount + 1 }

/-- The node at `i` after `c` was appended to `p`, whose last child was `last`. -/
def Node.appended (n : Node) (last p c i : Nat) : Node :=
  let n :=
    if last ≠ nodeNull then
      let n := if i = last then { n with nextSibling := c } else n
      if i = p then { n with lastChild := c } else n
    else if i = p then { n with firstChild := c, lastChild := c } else n
  if i = c then { n with parent := p } else n

end Nucleus.Lang

namespace Nucleus.Proofs

open Nucleus.Lib
open Nucleus.Lib.Prog
open Nucleus.Lang
open Nucleus.Spec

/-! ### Pairs -/

/-- Two calls of token sources with the same result. The second one is alive and stays so, and the
tokens that it returns are in the source. -/
structure PairedCall {L L' : Type} (Rel : L → L' → Prop) (Live : L' → Prop)
    (InSource : Span → Prop) (call : L → LexResult × L) (call' : L' → LexResult × L') : Prop where
  live : ∀ {l : L'}, Live l → Live (call' l).2
  token : ∀ {l : L'} {t : Token}, Live l → (call' l).1 = .ok t → InSource t.span
  error : ∀ {l : L'} {e : LexError}, Live l → (call' l).1 = .error e → e.code ≠ some .outOfNode
  result : ∀ {l : L} {l' : L'}, Rel l l' → (call l).1 = (call' l').1
  rel : ∀ {l : L} {l' : L'}, Rel l l' → Rel (call l).2 (call' l').2

/-- What a shadow and a main run start from. When `Exact` holds, the memory of the two arenas and
their error data agree too, as far as the shadow's arena goes. -/
structure Pair (L L' : Type) [TokenSource L] [LawfulTokenSource L] [TokenSource L']
    [LawfulTokenSource L'] where
  Rel : L → L' → Prop
  Live : L' → Prop
  InSource : Span → Prop
  Exact : Prop
  capacity : UInt32
  capacity' : UInt32
  memory : NodeId → Node
  memory' : NodeId → Node
  capacity_le : capacity.toNat ≤ capacity'.toNat
  reads : ∀ {l : L'}, Live l → ∃ rs, LawfulTokenSource.Reads l rs
  reads_rel : ∀ {l : L} {l' : L'}, Rel l l' → ∃ rs, LawfulTokenSource.Reads l rs
  next : PairedCall Rel Live InSource TokenSource.next TokenSource.next
  peek : PairedCall Rel Live InSource (TokenSource.peek · 0) (TokenSource.peek · 0)

variable {L L' : Type} [TokenSource L] [LawfulTokenSource L] [TokenSource L']
  [LawfulTokenSource L'] {P : Pair L L'}

/-- When the pair is exact, the two parsers agree on the shadow's memory and on the error data. -/
def Pair.Agrees (P : Pair L L') (p : Parser L) (q : Parser L') : Prop :=
  P.Exact → p.error = q.error ∧ ∀ i : Nat, i < P.capacity.toNat → p.ast.nodes i = q.ast.nodes i

/-- The shadow at `p` beside the main run at `q`. -/
structure Pair.Beside (P : Pair L L') (fresh : NodeId → Prop) (p : Parser L) (q : Parser L') :
    Prop where
  rel : P.Rel p.lexer q.lexer
  room : p.ast.Room P.capacity P.memory
  twins : p.ast.Twins P.InSource fresh q.ast
  agrees : P.Agrees p q

/-- The invariant of the two runs. -/
structure Good (P : Pair L L') (fresh : NodeId → Prop) (ids : List NodeId) (o : Option (Parser L))
    (q : Parser L') : Prop where
  live : P.Live q.lexer
  room : q.ast.Room P.capacity' P.memory'
  ids : ∀ i ∈ ids, i < q.ast.nodeCount
  beside : ∀ p, o = some p → P.Beside fresh p q
  gone : o = none → P.capacity.toNat < q.ast.nodeCount

/-- No node is fresh. -/
def noNode : NodeId → Prop := fun _ => False

/-- How the shadow stops: with its arena in order. -/
def Pair.Stopped (P : Pair L L') (p : Parser L) : Prop := p.ast.Room P.capacity P.memory

/-- How both runs stop with the error `e`. -/
structure Pair.Failed (P : Pair L L') (e : Error) (o : Option (Parser L)) (q : Parser L') :
    Prop where
  room : q.ast.Room P.capacity' P.memory'
  gone : o = none → P.capacity.toNat < q.ast.nodeCount
  stopped : ∀ p, o = some p → P.Stopped p
  rel : ∀ p, o = some p → P.Rel p.lexer q.lexer
  count : ∀ p, o = some p → p.ast.nodeCount = q.ast.nodeCount
  agrees : ∀ p, o = some p → P.Agrees p q
  full : e = .outOfNode → P.capacity'.toNat ≤ q.ast.nodeCount

/-- The two runs of a parser function. -/
def Pair.Runs {α : Type} (P : Pair L L') (m : ParserM L α) (m' : ParserM L' α)
    (o : Option (Parser L)) (q : Parser L') (Q : α → Option (Parser L) → Parser L' → Prop) :
    Prop :=
  Shadow .outOfNode P.Stopped P.Failed m m' o q Q

/-! ### The invariant -/

section
variable {fresh : NodeId → Prop} {ids : List NodeId} {o : Option (Parser L)} {q : Parser L'}

/-- The ids that are kept are allocated. -/
theorem Good.lt (h : Good P fresh ids o q) {i : NodeId} (hi : i ∈ ids) : i < q.ast.nodeCount :=
  h.ids i hi

/-- Ids can be forgotten. -/
theorem Good.subset {ids' : List NodeId} (h : Good P fresh ids o q) (hsub : ids' ⊆ ids) :
    Good P fresh ids' o q :=
  ⟨h.live, h.room, fun i hi => h.ids i (hsub hi), h.beside, h.gone⟩

/-- An allocated id can be kept. -/
theorem Good.cons (h : Good P fresh ids o q) {i : NodeId} (hi : i < q.ast.nodeCount) :
    Good P fresh (i :: ids) o q := by
  refine ⟨h.live, h.room, fun j hj => ?_, h.beside, h.gone⟩
  rcases List.mem_cons.mp hj with rfl | hj
  · exact hi
  · exact h.ids j hj

/-- Both runs stop here, and the shadow has stored what the main run has. -/
theorem Good.failed (h : Good P fresh ids o q) {e : Error} (he : e ≠ .outOfNode)
    {F : Parser L → Parser L} {q' : Parser L'} (hast : q'.ast = q.ast)
    (hF : ∀ p, (F p).ast = p.ast) (hrel : ∀ p, o = some p → P.Rel (F p).lexer q'.lexer)
    (herror : ∀ p, p.error = q.error → (F p).error = q'.error) :
    P.Failed e (o.map F) q' where
  room := hast ▸ h.room
  gone := by
    rw [hast]
    exact fun hnone => h.gone (Option.map_eq_none_iff.mp hnone)
  stopped := by
    rintro p' hp'
    obtain ⟨p, hp, rfl⟩ := Option.map_eq_some_iff.mp hp'
    show (F p).ast.Room P.capacity P.memory
    rw [hF]
    exact (h.beside p hp).room
  rel := by
    rintro p' hp'
    obtain ⟨p, hp, rfl⟩ := Option.map_eq_some_iff.mp hp'
    exact hrel p hp
  count := by
    rintro p' hp'
    obtain ⟨p, hp, rfl⟩ := Option.map_eq_some_iff.mp hp'
    rw [hF, hast]
    exact (h.beside p hp).twins.count
  agrees := by
    rintro p' hp' hexact
    obtain ⟨p, hp, rfl⟩ := Option.map_eq_some_iff.mp hp'
    rw [hF, hast]
    exact (h.beside p hp).agrees hexact |>.imp_left (herror p)
  -- this error is not that of a full arena
  full := fun heq => absurd heq he

end

/-! ### Tokens -/

/-- `tok` is what both token sources show next. -/
def Ahead (tok : Token) (o : Option (Parser L)) (q : Parser L') : Prop :=
  (∃ rs, LawfulTokenSource.Reads q.lexer rs ∧ Head rs tok) ∧
    ∀ p, o = some p → ∃ rs, LawfulTokenSource.Reads p.lexer rs ∧ Head rs tok

section
variable {ids : List NodeId} {o : Option (Parser L)} {q : Parser L'}

/-- A token source shows a token again that it has shown. -/
theorem head_of_peek {l : L'} {rs : List LexResult} {tok : Token}
    (h : LawfulTokenSource.Reads l rs) (hpeek : (TokenSource.peek l 0).1 = .ok tok) :
    ∃ rs', LawfulTokenSource.Reads (TokenSource.peek l 0).2 rs' ∧ Head rs' tok := by
  rcases rs with _ | ⟨e | t, rest⟩
  · obtain ⟨h₁, h₂⟩ := LawfulTokenSource.peek_nil h
    rw [h₁] at hpeek
    exact ⟨[], h₂, Or.inl ⟨rfl, (Except.ok.inj hpeek).symm⟩⟩
  · rw [(LawfulTokenSource.peek_error h).1] at hpeek
    cases hpeek
  · obtain ⟨h₁, h₂⟩ := LawfulTokenSource.peek_ok h
    rw [h₁] at hpeek
    cases hpeek
    exact ⟨_, h₂, Or.inr ⟨rest, rfl⟩⟩

/-- The token that is shown comes next. -/
theorem Ahead.next {tok : Token} (h : Ahead tok o q) :
    (TokenSource.next q.lexer).1 = .ok tok := by
  obtain ⟨rs, hreads, ⟨rfl, rfl⟩ | ⟨rest, rfl⟩⟩ := h.1
  · exact (LawfulTokenSource.next_nil hreads).1
  · exact (LawfulTokenSource.next_cons hreads).1

/-- The parser after a call of its lexer. -/
def Parser.read {L : Type} (call : L → LexResult × L) (p : Parser L) : Parser L :=
  { p with lexer := (call p.lexer).2 }

/-- The parser after a call of its lexer that fails. -/
def Parser.readError {L : Type} (call : L → LexResult × L) (span : Option Span) (p : Parser L) :
    Parser L :=
  { Parser.read call p with error := { p.error with span := span.getD p.error.span } }

/-- Two calls of the lexers keep the invariant. -/
theorem Good.read {call : L → LexResult × L} {call' : L' → LexResult × L'}
    (hcall : PairedCall P.Rel P.Live P.InSource call call') (h : Good P noNode ids o q) :
    Good P noNode ids (o.map (Parser.read call)) (Parser.read call' q) := by
  refine ⟨hcall.live h.live, h.room, h.ids, ?_, ?_⟩
  · rintro p' hp'
    obtain ⟨p, hp, rfl⟩ := Option.map_eq_some_iff.mp hp'
    have hbeside := h.beside p hp
    exact ⟨hcall.rel hbeside.rel, hbeside.room, hbeside.twins, hbeside.agrees⟩
  · intro hnone
    exact h.gone (Option.map_eq_none_iff.mp hnone)

/-- The two lexers return the same result, and the shadow follows the main run. -/
theorem runs_lexer {call : L → LexResult × L} {call' : L' → LexResult × L'}
    (hcall : PairedCall P.Rel P.Live P.InSource call call') (h : Good P noNode ids o q)
    {Q : Token → Option (Parser L) → Parser L' → Prop}
    (hQ : ∀ tok, (call' q.lexer).1 = .ok tok → P.InSource tok.span →
      Q tok (o.map (Parser.read call)) (Parser.read call' q)) :
    P.Runs (fromLexer call) (fromLexer call') o q Q := by
  have hshadow : ∀ p, o = some p → (call p.lexer).1 = (call' q.lexer).1 := fun p hp =>
    hcall.result (h.beside p hp).rel
  -- both calls have the same result: none, an error or a token
  rcases hr : (call' q.lexer).1 with ⟨_ | code, span⟩ | tok
  · exact Shadow.of_none (fromLexer_endless call' hr) fun p hp =>
      fromLexer_endless call ((hshadow p hp).trans hr)
  · have hcode : code ≠ .outOfNode := fun heq => hcall.error h.live hr (congrArg some heq)
    refine Shadow.throw (g := Parser.readError call span) (fromLexer_error call' hr)
      (fun p hp => fromLexer_error call ((hshadow p hp).trans hr)) ?_
    refine h.failed hcode rfl (fun _ => rfl) (fun p hp => hcall.rel (h.beside p hp).rel)
      fun p herror => ?_
    show ({ p.error with span := span.getD p.error.span } : ErrorData) = _
    rw [herror]
  · exact Shadow.step (g := Parser.read call) (fromLexer_ok call' hr)
      (fun p hp => fromLexer_ok call ((hshadow p hp).trans hr)) (hQ tok hr (hcall.token h.live hr))

/-- A peek shows the same token to both. -/
theorem runs_peek (h : Good P noNode ids o q)
    {Q : Token → Option (Parser L) → Parser L' → Prop}
    (hQ : ∀ tok o' q', Good P noNode ids o' q' → P.InSource tok.span → Ahead tok o' q' →
      Q tok o' q') : P.Runs (parserPeek 0) (parserPeek 0) o q Q := by
  refine runs_lexer P.peek h fun tok htok hspan => hQ _ _ _ (h.read P.peek) hspan ⟨?_, ?_⟩
  · obtain ⟨rs, hreads⟩ := P.reads h.live
    exact head_of_peek hreads htok
  · rintro p' hp'
    obtain ⟨p, hp, rfl⟩ := Option.map_eq_some_iff.mp hp'
    have hrel := (h.beside p hp).rel
    obtain ⟨rs, hreads⟩ := P.reads_rel hrel
    exact head_of_peek hreads ((P.peek.result hrel).trans htok)

/-- The same token is read by both. -/
theorem runs_next (h : Good P noNode ids o q)
    {Q : Token → Option (Parser L) → Parser L' → Prop}
    (hQ : ∀ tok o' q', (TokenSource.next q.lexer).1 = .ok tok → Good P noNode ids o' q' →
      P.InSource tok.span → Q tok o' q') : P.Runs parserConsume parserConsume o q Q :=
  runs_lexer P.next h fun tok htok hspan => hQ tok _ _ htok (h.read P.next) hspan

/-- The token that a peek has shown. -/
theorem runs_take (h : Good P noNode ids o q) {tok : Token} (hahead : Ahead tok o q)
    {Q : Token → Option (Parser L) → Parser L' → Prop}
    (hQ : ∀ o' q', Good P noNode ids o' q' → P.InSource tok.span → Q tok o' q') :
    P.Runs parserConsume parserConsume o q Q := by
  refine runs_next h fun tok' o' q' htok h' hspan => ?_
  obtain rfl : tok' = tok := Except.ok.inj (htok.symm.trans hahead.next)
  exact hQ o' q' h' hspan

/-- An error of the parser's own. -/
theorem runs_raise {α : Type} (h : Good P noNode ids o q) {e : Error} (he : e ≠ .outOfNode)
    {f : ErrorData → ErrorData} {Q : α → Option (Parser L) → Parser L' → Prop} :
    P.Runs (report f >>= fun _ => Prog.fail e) (report f >>= fun _ => Prog.fail e) o q Q := by
  refine Shadow.bind (Shadow.modify (Shadow.fail ?_))
  exact h.failed he rfl (fun _ => rfl) (fun p hp => (h.beside p hp).rel) fun p herror =>
    congrArg f herror

/-- The token that is expected is read by both, or fails in both. -/
theorem runs_expect {type : TokenType} (h : Good P noNode ids o q)
    {Q : Token → Option (Parser L) → Parser L' → Prop}
    (hQ : ∀ tok o' q', Good P noNode ids o' q' → P.InSource tok.span → Q tok o' q') :
    P.Runs (parserExpect type) (parserExpect type) o q Q := by
  refine Shadow.bind (runs_next h fun tok o₁ q₁ _ h₁ hs => ?_)
  exact Shadow.ite (fun _ => runs_raise h₁ (by decide)) fun _ => Shadow.pure (hQ tok o₁ q₁ h₁ hs)

/-- A token is read by both or by neither. -/
theorem runs_accept {type : TokenType} (h : Good P noNode ids o q)
    {Q : Option Token → Option (Parser L) → Parser L' → Prop}
    (hsome : ∀ tok o' q', Good P noNode ids o' q' → P.InSource tok.span → Q (some tok) o' q')
    (hnone : ∀ o' q', Good P noNode ids o' q' → Q none o' q') :
    P.Runs (parserAccept type) (parserAccept type) o q Q := by
  refine Shadow.bind (runs_peek h fun tok o₁ q₁ h₁ _ hahead => ?_)
  refine Shadow.ite (fun _ => ?_) (fun _ => Shadow.pure (hnone o₁ q₁ h₁))
  exact Shadow.bind (runs_take h₁ hahead fun o₂ q₂ h₂ hs => Shadow.pure (hsome _ o₂ q₂ h₂ hs))

/-- The error data after `parserExpect type` reads the result `r`. -/
def expectError (type : TokenType) (r : LexResult) (error : ErrorData) : ErrorData :=
  match r with
  | .error e => { error with span := e.span.getD error.span }
  | .ok tok =>
      if tok.type ≠ type then
        { error with tokenGot := tok.type, tokenExpect := type, span := tok.span }
      else error

/-- The parser after a call of `parserExpect type` whose error is dropped. -/
def Parser.expected {L : Type} [TokenSource L] (type : TokenType) (p : Parser L) : Parser L :=
  { Parser.read TokenSource.next p with
      error := expectError type (TokenSource.next p.lexer).1 p.error }

omit [LawfulTokenSource L] in
/-- A dropped error of `expect` leaves the lexer behind the token, and the arena as it was. -/
theorem ignore_expect_run {type : TokenType} {p : Parser L}
    (h : endless (some (TokenSource.next p.lexer).1) = false) :
    ignoreError (parserExpect type) p = some (.ok (), Parser.expected type p) := by
  refine ignoreError_eq_ok.mpr ?_
  unfold Parser.expected expectError
  rcases hr : (TokenSource.next p.lexer).1 with ⟨_ | code, span⟩ | tok
  · rw [hr] at h
    cases h
  · exact ⟨_, bind_run_error (fromLexer_error TokenSource.next hr)⟩
  · have hrun : parserConsume p = some (.ok tok, Parser.read TokenSource.next p) :=
      fromLexer_ok TokenSource.next hr
    unfold parserExpect
    rw [bind_run_ok hrun]
    dsimp only
    split
    · exact ⟨_, rfl⟩
    · exact ⟨_, rfl⟩

omit [LawfulTokenSource L] in
/-- A call that never returns has no result to ignore. -/
theorem ignore_expect_none {type : TokenType} {p : Parser L}
    (h : endless (some (TokenSource.next p.lexer).1) = true) :
    ignoreError (parserExpect type) p = none := by
  rcases hr : (TokenSource.next p.lexer).1 with ⟨_ | code, span⟩ | tok
  · have hrun : parserExpect type p = none := bind_run_none (fromLexer_endless TokenSource.next hr)
    rw [ignoreError, hrun]
  all_goals
    rw [hr] at h
    cases h

/-- The place of the closing parenthesis of `insert(name`: what stands there is dropped. -/
theorem runs_ignore_expect {type : TokenType} (h : Good P noNode ids o q)
    {Q : Unit → Option (Parser L) → Parser L' → Prop}
    (hQ : ∀ o' q', Good P noNode ids o' q' → Q () o' q') :
    P.Runs (ignoreError (parserExpect type)) (ignoreError (parserExpect type)) o q Q := by
  have hshadow : ∀ p, o = some p → (TokenSource.next p.lexer).1 = (TokenSource.next q.lexer).1 :=
    fun p hp => P.next.result (h.beside p hp).rel
  cases hends : endless (some (TokenSource.next q.lexer).1) with
  | true =>
      refine Shadow.of_none (ignore_expect_none hends) fun p hp => ignore_expect_none ?_
      rw [hshadow p hp, hends]
  | false =>
      refine Shadow.step (g := Parser.expected type) (ignore_expect_run hends)
        (fun p hp => ignore_expect_run ?_) (hQ _ _ ?_)
      · rw [hshadow p hp, hends]
      · refine ⟨P.next.live h.live, h.room, h.ids, ?_, ?_⟩
        · rintro p' hp'
          obtain ⟨p, hp, rfl⟩ := Option.map_eq_some_iff.mp hp'
          have hbeside := h.beside p hp
          refine ⟨P.next.rel hbeside.rel, hbeside.room, hbeside.twins, fun hexact => ?_⟩
          -- the two token sources give the same result, so what is stored is the same
          obtain ⟨herror, hnodes⟩ := hbeside.agrees hexact
          refine ⟨?_, hnodes⟩
          show expectError _ _ p.error = expectError _ _ q.error
          rw [hshadow p hp, herror]
        · intro hnone
          exact h.gone (Option.map_eq_none_iff.mp hnone)

end

/-! ### Arenas in order -/

section
variable {limit : UInt32} {memory : NodeId → Node} {a : Ast}

/-- Storing into an allocated node keeps an arena in order when the links that it stores are
allocated. -/
theorem Room.modifyNode (h : a.Room limit memory) {id : Nat} {f : Node → Node}
    (hid : id < a.nodeCount) (htype : id = 0 → (f (a.nodes 0)).type = .astModule)
    (hfirst : ∀ n : Node, a.Link n.firstChild → a.Link (f n).firstChild)
    (hlast : ∀ n : Node, a.Link n.lastChild → a.Link (f n).lastChild)
    (hnext : ∀ n : Node, a.Link n.nextSibling → a.Link (f n).nextSibling) :
    (a.modifyNode id f).Room limit memory := by
  -- one node changes, and it is an allocated one
  have hnode : ∀ i : Nat,
      (a.modifyNode id f).nodes i = if i = id then f (a.nodes i) else a.nodes i := fun i => rfl
  refine ⟨h.root, h.capacity, h.pos, h.le, ?_, fun i hi => ?_, fun i hi => ?_, fun i hi => ?_,
    fun i hi => ?_⟩
  · rw [hnode]
    split
    · rename_i h0
      exact htype h0.symm
    · exact h.type
  · rw [Ast.modifyNode_nodeCount] at hi
    rw [hnode, if_neg (by omega)]
    exact h.untouched i hi
  · rw [hnode]
    split
    · exact hfirst _ (h.firstChild i hi)
    · exact h.firstChild i hi
  · rw [hnode]
    split
    · exact hlast _ (h.lastChild i hi)
    · exact h.lastChild i hi
  · rw [hnode]
    split
    · exact hnext _ (h.nextSibling i hi)
    · exact h.nextSibling i hi

/-- A store that keeps the links. -/
theorem Room.store (h : a.Room limit memory) {id : Nat} {f : Node → Node}
    (hid : id < a.nodeCount) (htype : id = 0 → (f (a.nodes 0)).type = .astModule)
    (hlinks : ∀ n : Node, (f n).linksOf = n.linksOf) : (a.modifyNode id f).Room limit memory := by
  refine Room.modifyNode h hid htype (fun n hn => ?_) (fun n hn => ?_)
    fun n hn => ?_
  · rwa [show (f n).firstChild = n.firstChild from congrArg Links.firstChild (hlinks n)]
  · rwa [show (f n).lastChild = n.lastChild from congrArg Links.lastChild (hlinks n)]
  · rwa [show (f n).nextSibling = n.nextSibling from congrArg Links.nextSibling (hlinks n)]

/-- A change of one value keeps an arena in order. -/
theorem Room.revalue (h : a.Room limit memory) {id : Nat} {f : Node → Node}
    (hid : id < a.nodeCount) (hf : Revalues f) : (a.modifyNode id f).Room limit memory :=
  Room.store h hid (fun _ => (hf.type _).trans h.type) hf.links

/-- A new node leaves the arena in order. -/
theorem Room.addNode {b : Ast} {id : NodeId} (h : a.Room limit memory)
    (hadd : addNode a = some (id, b)) : b.Room limit memory := by
  unfold Nucleus.Lang.addNode at hadd
  split at hadd
  · cases hadd
  · rename_i hfull
    cases hadd
    rw [h.capacity] at hfull
    have hnode : ∀ i : Nat, (a.modifyNode a.nodeCount Ast.unlinked).nodes i =
        if i = a.nodeCount then Ast.unlinked (a.nodes i) else a.nodes i := fun i => rfl
    -- the new node has no links, and the links of the others stay below the new bound
    have hlink : ∀ {f : Node → NodeId}, (∀ i : Nat, i < a.nodeCount → a.Link (f (a.nodes i))) →
        (∀ n, f (Ast.unlinked n) = nodeNull) → ∀ i : Nat, i < a.nodeCount + 1 →
          f ((a.modifyNode a.nodeCount Ast.unlinked).nodes i) = nodeNull ∨
            f ((a.modifyNode a.nodeCount Ast.unlinked).nodes i) < a.nodeCount + 1 := by
      intro f hf hnull i hi
      rw [hnode]
      split
      · exact Or.inl (hnull _)
      · rename_i hne
        exact (hf i (by omega)).imp_right fun hlt => Nat.lt_succ_of_lt hlt
    have hpos := h.pos
    refine ⟨h.root, h.capacity, Nat.succ_pos _, Nat.lt_of_not_le hfull, ?_, fun i hi => ?_,
      hlink h.firstChild fun _ => rfl, hlink h.lastChild fun _ => rfl,
      hlink h.nextSibling fun _ => rfl⟩
    · show ((a.modifyNode a.nodeCount Ast.unlinked).nodes 0).type = .astModule
      rw [hnode, if_neg (by omega)]
      exact h.type
    · show (a.modifyNode a.nodeCount Ast.unlinked).nodes i = memory i
      have hi' : a.nodeCount + 1 ≤ i := hi
      rw [hnode, if_neg (by omega)]
      exact h.untouched i (by omega)

/-- Appending an allocated node to an allocated node leaves the arena in order. -/
theorem Room.appendChild {p c : Nat} (h : a.Room limit memory) (hp : p < a.nodeCount)
    (hc : c < a.nodeCount) : (appendChild a p c).Room limit memory := by
  -- each of the stores writes an allocated node and stores `p` or `c`
  have hstep : ∀ {b : Ast} {i : Nat} {f : Node → Node}, b.Room limit memory →
      b.nodeCount = a.nodeCount → i < a.nodeCount → (∀ n, (f n).type = n.type) →
      (∀ n, (f n).firstChild = n.firstChild ∨ (f n).firstChild = c) →
      (∀ n, (f n).lastChild = n.lastChild ∨ (f n).lastChild = c) →
      (∀ n, (f n).nextSibling = n.nextSibling ∨ (f n).nextSibling = c) →
      (b.modifyNode i f).Room limit memory := by
    intro b i f hb hcount hi htype hfirst hlast hnext
    have hlink : ∀ {x y : NodeId}, y = x ∨ y = c → b.Link x → b.Link y := by
      rintro x y (rfl | rfl) hx
      · exact hx
      · exact Or.inr (hcount ▸ hc)
    exact Room.modifyNode hb (hcount ▸ hi) (fun _ => (htype _).trans hb.type)
      (fun n => hlink (hfirst n)) (fun n => hlink (hlast n)) fun n => hlink (hnext n)
  have hlinked : (if (a.nodes p).lastChild ≠ nodeNull then
        (a.modifyNode (a.nodes p).lastChild fun n => { n with nextSibling := c }).modifyNode p
          fun n => { n with lastChild := c }
      else a.modifyNode p fun n => { n with firstChild := c, lastChild := c }).Room
      limit memory := by
    split
    · rename_i hne
      have hlast := (h.lastChild p hp).resolve_left hne
      exact hstep (hstep h rfl hlast (fun _ => rfl) (fun _ => Or.inl rfl) (fun _ => Or.inl rfl)
        fun _ => Or.inr rfl) rfl hp (fun _ => rfl) (fun _ => Or.inl rfl) (fun _ => Or.inr rfl)
        fun _ => Or.inl rfl
    · exact hstep h rfl hp (fun _ => rfl) (fun _ => Or.inr rfl) (fun _ => Or.inr rfl)
        fun _ => Or.inl rfl
  have hcount : (if (a.nodes p).lastChild ≠ nodeNull then
        (a.modifyNode (a.nodes p).lastChild fun n => { n with nextSibling := c }).modifyNode p
          fun n => { n with lastChild := c }
      else a.modifyNode p fun n => { n with firstChild := c, lastChild := c }).nodeCount =
        a.nodeCount := by
    split <;> rfl
  have hroom := hstep (f := fun n => { n with parent := p }) hlinked hcount hc (fun _ => rfl)
    (fun _ => Or.inl rfl) (fun _ => Or.inl rfl) fun _ => Or.inl rfl
  exact ⟨hroom.root, hroom.capacity, hroom.pos, hroom.le, hroom.type, hroom.untouched,
    hroom.firstChild, hroom.lastChild, hroom.nextSibling⟩

end

/-! ### Twin arenas -/

section
variable {S : Span → Prop} {a b : Ast} {n m : Node}

/-- Two nodes with the same links are twins when what a production stores agrees. -/
theorem Twin.of_links (hlinks : n.linksOf = m.linksOf) (htype : n.type = m.type)
    (hvalue : n.type.hasValue = true → n.value = m.value)
    (hspan : n.type.hasSpan = true → n.span = m.span ∧ S m.span) : n.Twin S m where
  type := htype
  value := hvalue
  parent := congrArg Links.parent hlinks
  firstChild := congrArg Links.firstChild hlinks
  lastChild := congrArg Links.lastChild hlinks
  nextSibling := congrArg Links.nextSibling hlinks
  span := hspan

/-- Nodes that are the same have the same links. -/
theorem Twin.linksOf (h : n.Twin S m) : n.linksOf = m.linksOf := by
  unfold Node.linksOf
  rw [h.parent, h.firstChild, h.lastChild, h.nextSibling]

/-- The same change of value keeps two nodes the same. -/
theorem Twin.revalue {f : Node → Node} (h : n.Twin S m) (hf : Revalues f) :
    (f n).Twin S (f m) := by
  refine Twin.of_links ?_ ?_ (fun hv => hf.value n m (h.value ?_)) fun hs => ?_
  · rw [hf.links, hf.links, Twin.linksOf h]
  · rw [hf.type, hf.type, h.type]
  · rwa [hf.type] at hv
  · rw [hf.span, hf.span]
    exact h.span (by rwa [hf.type] at hs)

/-- A store of a type, a value and a span. -/
theorem stores_value {t : NodeType} {v : NodeValue} {s : Span} (hs : S s) :
    Stores S (fun n => { n with type := t, value := v, span := s })
      fun n => { n with type := t, value := v, span := s } where
  links := fun _ => rfl
  links' := fun _ => rfl
  twin := fun _ _ h => Twin.of_links h rfl (fun _ => rfl) fun _ => ⟨rfl, hs⟩

/-- A store of a type and a span, when no resolver reads the span. -/
theorem stores_span {t : NodeType} {s s' : Span} (ht : t.hasValue = false)
    (hs : t.hasSpan = false) :
    Stores S (fun n => { n with type := t, span := s })
      fun n => { n with type := t, span := s' } where
  links := fun _ => rfl
  links' := fun _ => rfl
  twin := fun _ _ h => Twin.of_links h rfl (fun hv => absurd (ht.symm.trans hv) (by decide))
    fun hv => absurd (hs.symm.trans hv) (by decide)

/-- A store of a type alone. -/
theorem stores_type {t : NodeType} (ht : t.hasValue = false) (hs : t.hasSpan = false) :
    Stores S (fun n => { n with type := t }) fun n => { n with type := t } where
  links := fun _ => rfl
  links' := fun _ => rfl
  twin := fun _ _ h => Twin.of_links h rfl (fun hv => absurd (ht.symm.trans hv) (by decide))
    fun hv => absurd (hs.symm.trans hv) (by decide)

/-- An arena with room grows. -/
theorem addNode_of_lt (h : a.nodeCount < a.nodeCapacity.toNat) :
    addNode a = some (a.nodeCount, a.grown) := by
  unfold addNode
  rw [if_neg (Nat.not_le.mpr h)]
  rfl

/-- A full arena has no new node. -/
theorem addNode_of_le (h : a.nodeCapacity.toNat ≤ a.nodeCount) : addNode a = none := by
  unfold addNode
  rw [if_pos h]

/-- The nodes of an arena that has grown. -/
theorem grown_nodes (a : Ast) (i : Nat) :
    a.grown.nodes i = if i = a.nodeCount then Ast.unlinked (a.nodes i) else a.nodes i := rfl

/-- Two arenas that grow have the same nodes but for the new one. -/
theorem Twins.grown (h : a.Twins S noNode b) : a.grown.Twins S (· = b.nodeCount) b.grown := by
  refine ⟨congrArg (· + 1) h.count, fun i hi hne => ?_, fun i _ hfresh => ?_⟩
  · have hi' : i < b.nodeCount + 1 := hi
    have hne' : i ≠ b.nodeCount := hne
    rw [grown_nodes, grown_nodes, h.count, if_neg hne', if_neg hne']
    exact h.nodes i (by omega) not_false
  · rw [grown_nodes, grown_nodes, h.count, if_pos hfresh, if_pos hfresh]
    rfl

/-- The stores of a production into its new node make the arenas twins again. -/
theorem Twins.store {id : Nat} {f g : Node → Node} (h : a.Twins S (· = id) b) (hs : Stores S f g) :
    (a.modifyNode id f).Twins S noNode (b.modifyNode id g) := by
  refine ⟨h.count, fun i hi _ => ?_, fun _ _ hfresh => hfresh.elim⟩
  by_cases hid : i = id
  · subst hid
    rw [Ast.modifyNode_nodes_self, Ast.modifyNode_nodes_self]
    exact hs.twin _ _ (h.links i hi rfl)
  · rw [Ast.modifyNode_nodes_ne _ _ hid, Ast.modifyNode_nodes_ne _ _ hid]
    exact h.nodes i hi hid

/-- A new value of a node in both arenas. -/
theorem Twins.revalue {id : Nat} {f : Node → Node} (h : a.Twins S noNode b) (hf : Revalues f) :
    (a.modifyNode id f).Twins S noNode (b.modifyNode id f) := by
  refine ⟨h.count, fun i hi _ => ?_, fun _ _ hfresh => hfresh.elim⟩
  have htwin := h.nodes i hi not_false
  by_cases hid : i = id
  · subst hid
    rw [Ast.modifyNode_nodes_self, Ast.modifyNode_nodes_self]
    exact Twin.revalue htwin hf
  · rwa [Ast.modifyNode_nodes_ne _ _ hid, Ast.modifyNode_nodes_ne _ _ hid]

/-- The nodes behind an appended child. -/
theorem appendChild_nodes (a : Ast) (p c i : Nat) :
    (appendChild a p c).nodes i = (a.nodes i).appended (a.nodes p).lastChild p c i := by
  by_cases hlast : (a.nodes p).lastChild ≠ nodeNull
  · simp only [Nucleus.Lang.appendChild, Node.appended, if_pos hlast]
    rfl
  · simp only [Nucleus.Lang.appendChild, Node.appended, if_neg hlast]
    rfl

/-- An appended child changes the same nodes in the same way. -/
theorem Twin.appended (h : n.Twin S m) (last p c i : Nat) :
    (n.appended last p c i).Twin S (m.appended last p c i) := by
  have hnext : ∀ {n m : Node}, n.Twin S m →
      ({ n with nextSibling := c } : Node).Twin S { m with nextSibling := c } := fun h =>
    ⟨⟨h.type, h.value, h.parent, h.firstChild, h.lastChild, rfl⟩, h.span⟩
  have hlast : ∀ {n m : Node}, n.Twin S m →
      ({ n with lastChild := c } : Node).Twin S { m with lastChild := c } := fun h =>
    ⟨⟨h.type, h.value, h.parent, h.firstChild, rfl, h.nextSibling⟩, h.span⟩
  have honly : ∀ {n m : Node}, n.Twin S m →
      ({ n with firstChild := c, lastChild := c } : Node).Twin S
        { m with firstChild := c, lastChild := c } := fun h =>
    ⟨⟨h.type, h.value, h.parent, rfl, rfl, h.nextSibling⟩, h.span⟩
  have hparent : ∀ {n m : Node}, n.Twin S m →
      ({ n with parent := p } : Node).Twin S { m with parent := p } := fun h =>
    ⟨⟨h.type, h.value, rfl, h.firstChild, h.lastChild, h.nextSibling⟩, h.span⟩
  -- the tests look at ids only, so both nodes take the same branch
  have hite : ∀ {x : Prop} [Decidable x] {n₁ n₂ m₁ m₂ : Node}, n₁.Twin S m₁ → n₂.Twin S m₂ →
      (if x then n₁ else n₂).Twin S (if x then m₁ else m₂) := by
    intro x _ n₁ n₂ m₁ m₂ h₁ h₂
    split
    · exact h₁
    · exact h₂
  have hsibling := hite (x := i = last) (hnext h) h
  have hbehind := hite (x := i = p) (hlast hsibling) hsibling
  have halone := hite (x := i = p) (honly h) h
  have hlinked := hite (x := last ≠ nodeNull) hbehind halone
  exact hite (hparent hlinked) hlinked

/-- Two arenas with an appended child have the same nodes. -/
theorem Twins.appendChild {p c : Nat} (h : a.Twins S noNode b) (hp : p < b.nodeCount) :
    (appendChild a p c).Twins S noNode (appendChild b p c) := by
  have hcount : ∀ a : Ast, (Nucleus.Lang.appendChild a p c).nodeCount = a.nodeCount :=
    fun a => appendChild_nodeCount a p c
  refine ⟨by rw [hcount, hcount, h.count], fun i hi _ => ?_, fun _ _ hfresh => hfresh.elim⟩
  rw [hcount] at hi
  rw [appendChild_nodes, appendChild_nodes, (h.nodes p hp not_false).lastChild]
  exact Twin.appended (h.nodes i hi not_false) _ p c i

end

/-! ### Steps on the arena -/

section
variable {fresh : NodeId → Prop} {ids : List NodeId} {o : Option (Parser L)} {q : Parser L'}

/-- The parser with a new node. -/
def Parser.grow {L : Type} (p : Parser L) : Parser L := { p with ast := p.ast.grown }

/-- A shadow that still runs has room for the nodes of the main run. -/
theorem Good.count_le (h : Good P fresh ids o q) {p : Parser L} (hp : o = some p) :
    q.ast.nodeCount ≤ P.capacity.toNat := by
  have hbeside := h.beside p hp
  exact hbeside.twins.count ▸ hbeside.room.le

/-- A new node in the main run, and in a shadow that stays. -/
theorem Good.grow (h : Good P noNode ids o q) (hlt : q.ast.nodeCount < P.capacity'.toNat)
    (hroom : ∀ p, o = some p → q.ast.nodeCount < P.capacity.toNat) :
    Good P (· = q.ast.nodeCount) (q.ast.nodeCount :: ids) (o.map Parser.grow)
      (Parser.grow q) := by
  refine ⟨h.live, ?_, ?_, ?_, ?_⟩
  · exact Room.addNode h.room (addNode_of_lt (by rwa [h.room.capacity]))
  · intro i hi
    rcases List.mem_cons.mp hi with rfl | hi
    · exact Nat.lt_succ_self _
    · exact Nat.lt_succ_of_lt (h.ids i hi)
  · intro p' hp'
    obtain ⟨p, hp, rfl⟩ := Option.map_eq_some_iff.mp hp'
    have hbeside := h.beside p hp
    have hcount := hbeside.twins.count
    refine ⟨hbeside.rel, ?_, Twins.grown hbeside.twins, fun hexact => ?_⟩
    · refine Room.addNode hbeside.room (addNode_of_lt ?_)
      rw [hbeside.room.capacity, hcount]
      exact hroom p hp
    · obtain ⟨herror, hnodes⟩ := hbeside.agrees hexact
      refine ⟨herror, fun i hi => ?_⟩
      show p.ast.grown.nodes i = q.ast.grown.nodes i
      rw [grown_nodes, grown_nodes, hcount, hnodes i hi]
  · -- a shadow that is gone stays gone, as the main arena only grows
    intro hnone
    exact Nat.lt_succ_of_lt (h.gone (Option.map_eq_none_iff.mp hnone))

/-- A new node in the main run, after which the shadow is gone. -/
theorem Good.leave (h : Good P noNode ids o q) (hlt : q.ast.nodeCount < P.capacity'.toNat)
    (hle : P.capacity.toNat ≤ q.ast.nodeCount) :
    Good P (· = q.ast.nodeCount) (q.ast.nodeCount :: ids) none (Parser.grow q) where
  live := h.live
  room := Room.addNode h.room (addNode_of_lt (by rwa [h.room.capacity]))
  ids := by
    intro i hi
    rcases List.mem_cons.mp hi with rfl | hi
    · exact Nat.lt_succ_self _
    · exact Nat.lt_succ_of_lt (h.ids i hi)
  beside := by
    intro p hp
    cases hp
  gone := fun _ => Nat.lt_succ_of_le hle

/-- `nulang__add_node`: in a full main arena both runs stop, in a full arena of its own the
shadow does. -/
theorem runs_addNode (h : Good P noNode ids o q)
    {Q : NodeId → Option (Parser L) → Parser L' → Prop}
    (hQ : ∀ (id : Nat) o' q', id ≠ 0 → Good P (· = id) (id :: ids) o' q' → Q id o' q') :
    P.Runs parserAddNode parserAddNode o q Q := by
  have hfull : ∀ {L : Type} {p : Parser L}, p.ast.nodeCapacity.toNat ≤ p.ast.nodeCount →
      parserAddNode p = some (.error .outOfNode, p) := by
    intro L p hle
    unfold parserAddNode
    rw [addNode_of_le hle]
  have hnew : ∀ {L : Type} {p : Parser L}, p.ast.nodeCount < p.ast.nodeCapacity.toNat →
      parserAddNode p = some (.ok p.ast.nodeCount, Parser.grow p) := fun hlt =>
    parserAddNode_run (addNode_of_lt hlt)
  have hcapacity' := h.room.capacity
  have hpos := h.room.pos
  -- the smaller arena is full first: then the shadow leaves, and the main parser goes on
  by_cases hmain : q.ast.nodeCount < P.capacity'.toNat
  · have hrun' := hnew (p := q) (by rwa [hcapacity'])
    by_cases hshadow : ∀ p, o = some p → q.ast.nodeCount < P.capacity.toNat
    · refine Shadow.step (g := Parser.grow) hrun' (fun p hp => ?_)
        (hQ _ _ _ (by omega) (h.grow hmain hshadow))
      have hbeside := h.beside p hp
      rw [hnew (p := p), hbeside.twins.count]
      rw [hbeside.room.capacity, hbeside.twins.count]
      exact hshadow p hp
    · push Not at hshadow
      obtain ⟨p, rfl, hle⟩ := hshadow
      have hbeside := h.beside p rfl
      refine Shadow.leave hrun' (hfull (p := p) ?_) hbeside.room
        (hQ _ _ _ (by omega) (h.leave hmain hle))
      rwa [hbeside.room.capacity, hbeside.twins.count]
  -- with the larger arena full the smaller one is full too, and both parsers fail
  · have hle : P.capacity'.toNat ≤ q.ast.nodeCount := Nat.le_of_not_lt hmain
    refine Shadow.throw (g := id) (hfull (by rwa [hcapacity'])) (fun p hp => ?_) ?_
    · have hbeside := h.beside p hp
      refine hfull ?_
      rw [hbeside.room.capacity, hbeside.twins.count]
      exact P.capacity_le.trans hle
    · rw [Option.map_id]
      exact ⟨h.room, h.gone, fun p hp => (h.beside p hp).room, fun p hp => (h.beside p hp).rel,
        fun p hp => (h.beside p hp).twins.count, fun p hp => (h.beside p hp).agrees, fun _ => hle⟩

/-- A step that stores into the arenas, `F` into the shadow's. -/
theorem Good.withAst {fresh' : NodeId → Prop} {F : Parser L → Ast} {b : Ast}
    (h : Good P fresh ids o q) (hcount : b.nodeCount = q.ast.nodeCount)
    (hroom : b.Room P.capacity' P.memory')
    (hshadow : ∀ p, o = some p → (F p).Room P.capacity P.memory)
    (htwins : ∀ p, o = some p → (F p).Twins P.InSource fresh' b)
    (hexact : ∀ p, o = some p →
      (∀ i : Nat, i < P.capacity.toNat → p.ast.nodes i = q.ast.nodes i) →
      ∀ i : Nat, i < P.capacity.toNat → (F p).nodes i = b.nodes i) :
    Good P fresh' ids (o.map fun p => { p with ast := F p }) { q with ast := b } := by
  refine ⟨h.live, hroom, fun i hi => hcount ▸ h.ids i hi, ?_, ?_⟩
  · intro p' hp'
    obtain ⟨p, hp, rfl⟩ := Option.map_eq_some_iff.mp hp'
    have hbeside := h.beside p hp
    refine ⟨hbeside.rel, hshadow p hp, htwins p hp, fun he => ?_⟩
    obtain ⟨herror, hnodes⟩ := hbeside.agrees he
    exact ⟨herror, hexact p hp hnodes⟩
  · intro hnone
    -- a shadow that is gone stays gone, as the main arena has as many nodes as before
    show P.capacity.toNat < b.nodeCount
    rw [hcount]
    exact h.gone (Option.map_eq_none_iff.mp hnone)

/-- The stores of a production into its new node. What the shadow stores may depend on its
state. -/
theorem Good.store {id : Nat} {f : Parser L → Node → Node} {g : Node → Node}
    (h : Good P (· = id) ids o q) (hid : id ∈ ids) (h0 : id ≠ 0)
    (hs : ∀ p, o = some p → Stores P.InSource (f p) g) (hg : ∀ n, (g n).linksOf = n.linksOf)
    (hexact : ∀ p, o = some p →
      (∀ i : Nat, i < P.capacity.toNat → p.ast.nodes i = q.ast.nodes i) → f p = g) :
    Good P noNode ids (o.map fun p => { p with ast := p.ast.modifyNode id (f p) })
      { q with ast := q.ast.modifyNode id g } := by
  refine h.withAst rfl (Room.store h.room (h.ids id hid) (fun heq => absurd heq h0) hg)
    (fun p hp => ?_) (fun p hp => ?_) fun p hp hnodes i hi => ?_
  · have hbeside := h.beside p hp
    exact Room.store hbeside.room (hbeside.twins.count ▸ h.ids id hid) (fun heq => absurd heq h0)
      (hs p hp).links
  · exact Twins.store (h.beside p hp).twins (hs p hp)
  · show (if i = id then f p (p.ast.nodes i) else p.ast.nodes i) =
      if i = id then g (q.ast.nodes i) else q.ast.nodes i
    rw [hnodes i hi, hexact p hp hnodes]

/-- A store into the new node, in both runs. -/
theorem runs_setNode {id : Nat} {f : Node → Node} (h : Good P (· = id) ids o q) (hid : id ∈ ids)
    (h0 : id ≠ 0) (hs : Stores P.InSource f f) {Q : Unit → Option (Parser L) → Parser L' → Prop}
    (hQ : ∀ o' q', Good P noNode ids o' q' → Q () o' q') :
    P.Runs (setNode id f) (setNode id f) o q Q :=
  Shadow.modify (hQ _ _ (h.store (f := fun _ => f) hid h0 (fun _ _ => hs) hs.links
    fun _ _ _ => rfl))

/-- A new value for a node that is there already. -/
theorem runs_revalue {id : Nat} {f : Node → Node} (h : Good P noNode ids o q) (hid : id ∈ ids)
    (hf : Revalues f)
    {Q : Unit → Option (Parser L) → Parser L' → Prop}
    (hQ : ∀ o' q', Good P noNode ids o' q' → Q () o' q') :
    P.Runs (setNode id f) (setNode id f) o q Q := by
  refine Shadow.modify (hQ _ _ (h.withAst rfl (Room.revalue h.room (h.ids id hid) hf)
    (fun p hp => ?_) (fun p hp => Twins.revalue (h.beside p hp).twins hf)
    fun p hp hnodes i hi => ?_))
  · have hbeside := h.beside p hp
    exact Room.revalue hbeside.room (hbeside.twins.count ▸ h.ids id hid) hf
  · show (if i = id then f (p.ast.nodes i) else p.ast.nodes i) =
      if i = id then f (q.ast.nodes i) else q.ast.nodes i
    rw [hnodes i hi]

/-- An appended child, in both runs. -/
theorem runs_appendChild {parent child : Nat} (h : Good P noNode ids o q)
    (hp : parent < q.ast.nodeCount) (hc : child < q.ast.nodeCount)
    {Q : Unit → Option (Parser L) → Parser L' → Prop}
    (hQ : ∀ o' q', Good P noNode ids o' q' → Q () o' q') :
    P.Runs (parserAppendChild parent child) (parserAppendChild parent child) o q Q := by
  refine Shadow.modify (hQ _ _ (h.withAst (appendChild_nodeCount _ _ _)
    (Room.appendChild h.room hp hc) (fun p hsome => ?_) (fun p hsome => ?_)
    fun p hsome hnodes i hi => ?_))
  · have hbeside := h.beside p hsome
    exact Room.appendChild hbeside.room (hbeside.twins.count ▸ hp) (hbeside.twins.count ▸ hc)
  · exact Twins.appendChild (h.beside p hsome).twins hp
  · have hle := h.count_le hsome
    show (appendChild p.ast parent child).nodes i = (appendChild q.ast parent child).nodes i
    rw [appendChild_nodes, appendChild_nodes, hnodes i hi, hnodes parent (by omega)]

/-- `nulang__add_compound`: the span that it copies is not one that a resolver reports. -/
theorem runs_addCompound {parent : Nat} (h : Good P noNode ids o q) (hp : parent ∈ ids)
    {Q : NodeId → Option (Parser L) → Parser L' → Prop}
    (hQ : ∀ id o' q', Good P noNode (id :: ids) o' q' → Q id o' q') :
    P.Runs (addCompound parent) (addCompound parent) o q Q := by
  refine Shadow.bind (runs_addNode h fun id o₁ q₁ h0 h₁ => ?_)
  -- the span is read from the arena and stored into it, in one step
  have hmerge : ∀ {L α : Type} {k : Unit → ParserM L α},
      (Prog.gets (fun p : Parser L => (p.ast.nodes parent).span) >>= fun span =>
        setNode id (fun n => { n with type := .astCompound, span := span }) >>= k) =
      Prog.modify (fun p : Parser L => { p with ast := p.ast.modifyNode id fun n =>
        { n with type := .astCompound, span := (p.ast.nodes parent).span } }) >>= k := rfl
  rw [hmerge, hmerge]
  have h₂ := h₁.store (f := fun p n =>
      { n with type := .astCompound, span := (p.ast.nodes parent).span })
    (g := fun n => { n with type := .astCompound, span := (q₁.ast.nodes parent).span })
    List.mem_cons_self h0 (fun _ _ => stores_span rfl rfl) (fun _ => rfl) fun p hsome hnodes => ?_
  · refine Shadow.bind (Shadow.modify ?_)
    refine Shadow.bind (runs_appendChild h₂ (h₂.lt (List.mem_cons_of_mem _ hp))
      (h₂.lt List.mem_cons_self) fun o₃ q₃ h₃ => ?_)
    exact Shadow.pure (hQ id o₃ q₃ h₃)
  · -- the parent is a node of both arenas, so both read the same span
    have hle := h₁.count_le hsome
    have hlt : parent < q₁.ast.nodeCount := h₁.lt (List.mem_cons_of_mem _ hp)
    funext n
    rw [hnodes parent (by omega)]

end

end Nucleus.Proofs
