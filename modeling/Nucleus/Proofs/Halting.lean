import Nucleus.Proofs.Ending
import Nucleus.Proofs.Tree

/-!
# `Nucleus.Proofs.Halting`: when `nulang__parse` returns

The parser returns from a source exactly when it stands still nowhere in it (`parse_halts_iff`).
At a statement that begins with an idle token, `nulang__parse_stmt` returns success without a token
or a node, and the loop around it comes back to the same token for ever. Every other turn of the
parser's loops consumes a token, and what is left is a call of the lexer that never returns.
-/

set_option autoImplicit false

namespace Nucleus.Lang

/-- `id` was allocated on the way from the arena `a` to the arena `b`, and is not attached to a
parent. -/
structure Ast.IsFresh (a b : Ast) (id : NodeId) : Prop where
  ge : a.nodeCount ≤ id
  lt : id < b.nodeCount
  parent : (b.nodes id).parent = nodeNull

/-- Between the parsers `p` and `p'` at least one result of the lexer was consumed. -/
def Consumes {L : Type} [TokenSource L] [LawfulTokenSource L] (p p' : Parser L) : Prop :=
  ∃ rs rs', LawfulTokenSource.Reads p.lexer rs ∧ LawfulTokenSource.Reads p'.lexer rs' ∧
    rs'.length < rs.length

end Nucleus.Lang

namespace Nucleus.Proofs

open Nucleus.Lib
open Nucleus.Lib.Prog
open Nucleus.Lang
open Nucleus.Spec

variable {L : Type} [TokenSource L] [LawfulTokenSource L]

/-! ### Turns that consume a token -/

/-- A parser has consumed something when less is left. -/
theorem consumes_of_at {p p' : Parser L} {rs rs' : List LexResult} {a b : Ast} (h : At p rs a)
    (h' : At p' rs' b) : Consumes p p' ↔ rs'.length < rs.length := by
  constructor
  · rintro ⟨us, us', hreads, hreads', hlt⟩
    rwa [reads_unique hreads h.reads, reads_unique hreads' h'.reads] at hlt
  · intro hlt
    exact ⟨rs, rs', h.reads, h'.reads, hlt⟩

/-- The root of a new tree is a fresh node. -/
theorem isFresh_of_builds {a b : Ast} {id : NodeId} {k : Kind} {cs : Located}
    (h : Builds a b [] (.tree (id, k) cs)) : a.IsFresh b id := by
  have hmem := (h.mem_or (i := id) (by simp)).resolve_left (by simp)
  have hfloats := h.owns.floats
  rw [ids_tree, Links.floats_tree, Links.holds_tree] at hfloats
  exact ⟨hmem.1, hmem.2, congrArg Links.parent hfloats.1⟩

/-- What a call of `nulang__parse_stmt` that returns success did: a fresh statement from at
least one token, or nothing at an idle token. -/
theorem parseStmt_cases {n : Nat} {p p' : Parser L} {rs : List LexResult} {a : Ast}
    {r : Option NodeId} (h : At p rs a) (hv : a.Valid)
    (hrun : (productions n).parseStmt p = some (.ok r, p')) :
    (∃ id rs', r = some id ∧ a.IsFresh p'.ast id ∧ At p' rs' p'.ast ∧ rs'.length < rs.length ∧
        ∀ t, lookahead rs = some t → t ∉ idleTokens) ∨
      r = none ∧ At p' rs a ∧ ∃ t, lookahead rs = some t ∧ t ∈ idleTokens := by
  have hres := (correct n).stmt p rs a h hv r p' hrun
  cases r with
  | none => exact Or.inr ⟨rfl, hres⟩
  | some id =>
      obtain ⟨k, cs, rs', b, h', hb, hstmt⟩ := hres
      have hlen := hstmt.length_add_le
      simp only [Cat.width] at hlen
      obtain ⟨t', ht', hne⟩ := hstmt.lookahead_stmt
      refine Or.inl ⟨id, rs', rfl, ?_, ⟨h'.reads, rfl⟩, by omega, fun t ht => ?_⟩
      · rw [h'.ast]
        exact isFresh_of_builds hb
      · rwa [lookahead_inj ht ht']

/-- A call of `nulang__parse_stmt` that returns success has consumed a token and stored a fresh
node exactly when it did not start at an idle token. -/
theorem parseStmt_progress {n : Nat} {p p' : Parser L} {rs : List LexResult} {a : Ast}
    {r : Option NodeId} (h : At p rs a) (hv : a.Valid)
    (hrun : (productions n).parseStmt p = some (.ok r, p')) :
    (∃ id, r = some id ∧ a.IsFresh p'.ast id ∧ Consumes p p') ↔
      ∀ t, lookahead rs = some t → t ∉ idleTokens := by
  rcases parseStmt_cases h hv hrun with
    ⟨id, rs', rfl, hfresh, h', hlt, hall⟩ | ⟨rfl, -, t, ht, hidle⟩
  · exact iff_of_true ⟨id, rfl, hfresh, (consumes_of_at h h').mpr hlt⟩ hall
  · refine iff_of_false ?_ fun hall => hall t ht hidle
    rintro ⟨id, hid, -⟩
    cases hid

/-- A turn that calls `nulang__parse_stmt` after a peek and then stores into the arena. -/
theorem turn_progress {n : Nat} {p p₁ p₂ p' : Parser L} {rs : List LexResult} {a : Ast}
    {r : Option NodeId} (h : At p rs a) (h₁ : At p₁ rs a) (hv : a.Valid)
    (hrun : (productions n).parseStmt p₁ = some (.ok r, p₂)) (hlexer : p'.lexer = p₂.lexer) :
    Consumes p p' ↔ ∀ t, lookahead rs = some t → t ∉ idleTokens := by
  have hat : ∀ {rs' : List LexResult} {b : Ast}, At p₂ rs' b → At p' rs' p'.ast :=
    fun h₂ => ⟨hlexer ▸ h₂.reads, rfl⟩
  rcases parseStmt_cases h₁ hv hrun with
    ⟨id, rs', rfl, -, h₂, hlt, hall⟩ | ⟨rfl, h₂, t, ht, hidle⟩
  · exact iff_of_true ((consumes_of_at h (hat h₂)).mpr hlt) hall
  · refine iff_of_false ?_ fun hall => hall t ht hidle
    rw [consumes_of_at h (hat h₂)]
    exact lt_irrefl _

/-- A peek that succeeds gives the token ahead and consumes nothing. -/
theorem at_of_peek {p p' : Parser L} {rs : List LexResult} {a : Ast} {tok : Token} (h : At p rs a)
    (hrun : parserPeek 0 p = some (.ok tok, p')) : Head rs tok ∧ At p' rs a :=
  parserPeek_spec (Q := fun tok p' => Head rs tok ∧ At p' rs a) h
    (fun _ _ hhead hat => ⟨hhead, hat⟩) tok p' hrun

/-- A turn of a statement loop in an `if`, a `while` or a function that goes on. -/
theorem bodyTurn_progress {n : Nat} {stop : List TokenType} {parent : NodeId} {p p' : Parser L}
    {rs : List LexResult} {a : Ast} (h : At p rs a) (hv : a.Valid)
    (hrun : parseBodyStmt (productions n) stop parent () p = some (.ok (.yield ()), p')) :
    Consumes p p' ↔ ∀ t, lookahead rs = some t → t ∉ idleTokens := by
  obtain ⟨tok, p₁, hpeek, hrest⟩ := bind_eq_ok.mp hrun
  obtain ⟨-, h₁⟩ := at_of_peek h hpeek
  split at hrest
  · cases hrest
  · obtain ⟨r, p₂, hstmt, hrest⟩ := bind_eq_ok.mp hrest
    rw [gets_bind_run] at hrest
    obtain ⟨_, p₃, happend, hrest⟩ := bind_eq_ok.mp hrest
    cases happend
    cases hrest
    exact turn_progress h h₁ hv hstmt rfl

/-- A turn of the second loop of `nulang__parse` that goes on. -/
theorem moduleTurn_progress {n : Nat} {stmt stmt' : NodeId} {p p' : Parser L}
    {rs : List LexResult} {a : Ast} (h : At p rs a) (hv : a.Valid)
    (hrun : parseModuleStmt (productions n) stmt p = some (.ok (.yield stmt'), p')) :
    Consumes p p' ↔ ∀ t, lookahead rs = some t → t ∉ idleTokens := by
  obtain ⟨tok, p₁, hpeek, hrest⟩ := bind_eq_ok.mp hrun
  obtain ⟨-, h₁⟩ := at_of_peek h hpeek
  split at hrest
  · cases hrest
  · obtain ⟨r, p₂, hcall, hrest⟩ := bind_eq_ok.mp hrest
    rw [gets_bind_run] at hrest
    obtain ⟨_, p₃, happend, hrest⟩ := bind_eq_ok.mp hrest
    cases happend
    cases hrest
    exact turn_progress h h₁ hv hcall rfl

/-- A turn of the first loop of `nulang__parse` that goes on consumes nothing. -/
theorem headerTurn_progress {p p' : Parser L} {rs : List LexResult} {a : Ast} (h : At p rs a)
    (hrun : parseHeader () p = some (.ok (.yield ()), p')) :
    Consumes p p' ↔ ∀ t, lookahead rs = some t → t ∉ headerTokens := by
  obtain ⟨tok, p₁, hpeek, hrest⟩ := bind_eq_ok.mp hrun
  obtain ⟨hhead, h₁⟩ := at_of_peek h hpeek
  have hat : tok.type ∈ headerTokens ∧ At p' rs a := by
    split at hrest
    · rename_i htype
      cases hrest
      exact ⟨by rw [htype]; decide, h₁⟩
    · split at hrest
      · rename_i htype
        cases hrest
        exact ⟨by rw [htype]; decide, h₁⟩
      · cases hrest
  refine iff_of_false ?_ fun hall => hall _ hhead.lookahead hat.1
  rw [consumes_of_at h hat.2]
  exact lt_irrefl _

/-! ### Halting -/

/-- The parser halts on a source exactly when it stands still nowhere in it. In every run, a call of
`nulang__parse_stmt` that returns success and a turn of a loop that goes on consume a token
exactly when they start at no idle token, and at no header token in the first loop. -/
theorem parse_halts_iff {source : Source} {ast : Ast} {error : ErrorData} {uninit : NodeId} :
    ((∃ fuel r, parse fuel (parserStart source ast error uninit) = some r) ↔
      Halting (resultsOf source) ast.free) ∧
    ∀ {n : Nat} {p p' : Parser Lexer} {rs : List LexResult} {a : Ast}, At p rs a → a.Valid →
      (∀ r, (productions n).parseStmt p = some (.ok r, p') →
        ((∃ id, r = some id ∧ a.IsFresh p'.ast id ∧ Consumes p p') ↔
          ∀ t, lookahead rs = some t → t ∉ idleTokens)) ∧
      (∀ stop parent, parseBodyStmt (productions n) stop parent () p = some (.ok (.yield ()), p') →
        (Consumes p p' ↔ ∀ t, lookahead rs = some t → t ∉ idleTokens)) ∧
      (∀ stmt stmt', parseModuleStmt (productions n) stmt p = some (.ok (.yield stmt'), p') →
        (Consumes p p' ↔ ∀ t, lookahead rs = some t → t ∉ idleTokens)) ∧
      (parseHeader () p = some (.ok (.yield ()), p') →
        (Consumes p p' ↔ ∀ t, lookahead rs = some t → t ∉ headerTokens)) := by
  refine ⟨parse_returns_iff (at_parserStart source ast error uninit), ?_⟩
  intro n p p' rs a h hv
  exact ⟨fun _ hrun => parseStmt_progress h hv hrun, fun _ _ hrun => bodyTurn_progress h hv hrun,
    fun _ _ hrun => moduleTurn_progress h hv hrun, fun hrun => headerTurn_progress h hrun⟩

/-- The source `if a then b = c.d end` is read to its end. -/
theorem parse_halts_iff_ifSource : Halting (resultsOf ifSource) 15 := by
  obtain ⟨p, hrun⟩ := parse_ifSource
  exact parse_halts_iff.1.mp ⟨12, _, hrun⟩

/-- The source `break`. -/
def breakSource : Source := ⟨['b', 'r', 'e', 'a', 'k'], by decide⟩

/-- On `break` the parser never returns. -/
theorem parse_breakSource : ¬ ∃ fuel r, parse fuel (startOn breakSource) = some r := by
  have hhead : lookahead (resultsOf breakSource) = some .tokenBreak := by decide +kernel
  have hat : At (startOn breakSource) (resultsOf breakSource) (startOn breakSource).ast :=
    at_parserStart breakSource _ _ _
  intro hreturns
  have hhalt := (parse_returns_iff hat).mp hreturns
  -- the module goes on with a statement, and that one begins with `break`
  obtain ⟨token, hahead, htype⟩ := exists_ahead hhead
  have hbody : Goal.table (.body moduleStop) token = expand [.stmt, .body moduleStop] :=
    if_neg (by rw [htype]; decide)
  exact hhalt.goes _ _ (goes rfl hahead hbody) (Or.inr ⟨_, _, rfl, hhead, by decide⟩)

end Nucleus.Proofs
