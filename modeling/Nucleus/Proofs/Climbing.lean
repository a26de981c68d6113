import Nucleus.Lib.Precedence
import Nucleus.Proofs.Printing

/-!
# `Nucleus.Proofs.Climbing`: precedence climbing is the grouping by precedence

`nulang__parse_expr` decides from the left, operator by operator, with one threshold in hand.
What it builds is the tree that `Nucleus.Lib.group` takes apart from the top: `referenceTree`
splits a sequence of operands and operators at an operator of the least precedence.

`derives_climb` is the induction over the sequence, for every threshold at once, and
`parseExpr_climbs` the result for the code.
-/

set_option autoImplicit false

namespace Nucleus.Proofs

open Nucleus.Lib
open Nucleus.Lib.Prog
open Nucleus.Lang
open Nucleus.Spec

/-! ### The specification -/

/-- Operators with their right operands, which are primaries: `OperatorTail ops rs rs'` reads
them from the results `rs` and leaves `rs'`. -/
inductive OperatorTail : List (TokenType × Syn) → List LexResult → List LexResult → Prop where
  | nil {rs : List LexResult} : OperatorTail [] rs rs
  | cons {op : Token} {operand : Syn} {ops : List (TokenType × Syn)}
      {rs rs₁ rs' : List LexResult} :
      isBinop op.type = true → Derives .primary rs operand rs₁ → OperatorTail ops rs₁ rs' →
      OperatorTail ((op.type, operand) :: ops) (.ok op :: rs) rs'

/-- The node of an operator over its operands. -/
def binopTree (t : TokenType) (lhs rhs : Syn) : Syn :=
  .tree (.binop (binopFromToken t)) (lhs ++ rhs)

/-- The tree of a sequence: split at an operator of the least precedence, the last one where it
is left associative and the first one otherwise, and so on in both sides. -/
def referenceTree (operand : Syn) (ops : List (TokenType × Syn)) : Syn :=
  group binopPrecedence binopIsLeftAssociative binopTree operand ops

/-- The operator binds at least as tightly as the threshold `m`. -/
def bindsAtLeast (m : Nat) (x : TokenType × Syn) : Bool := m ≤ binopPrecedence x.1

/-! ### The table of operators -/

/-- The operators that associate to the left are those of the levels 1 and 2. -/
theorem binopIsLeftAssociative_eq (t : TokenType) :
    binopIsLeftAssociative t = (binopPrecedence t == 1 || binopPrecedence t == 2) := by
  cases t <;> rfl

/-- Operators of one precedence have one associativity. -/
theorem leftAssociative_of_precedence (t t' : TokenType)
    (h : binopPrecedence t = binopPrecedence t') :
    binopIsLeftAssociative t = binopIsLeftAssociative t' := by
  rw [binopIsLeftAssociative_eq, binopIsLeftAssociative_eq, h]

/-- The right operand of an operator keeps to the thresholds that the operator meets. -/
theorem precedence_le_nextMinAssoc (t : TokenType) : binopPrecedence t ≤ nextMinAssoc t := by
  unfold nextMinAssoc
  split
  · exact Nat.le_succ _
  · exact Nat.le_refl _

/-! ### Climbing -/

/-- The threshold `m` cuts a sequence where a higher threshold cuts it first, and then the
rest. -/
theorem takeWhile_bindsAtLeast {m k : Nat} (hmk : m ≤ k) (ops : List (TokenType × Syn)) :
    ops.takeWhile (bindsAtLeast m) =
        ops.takeWhile (bindsAtLeast k) ++
          (ops.dropWhile (bindsAtLeast k)).takeWhile (bindsAtLeast m) ∧
      ops.dropWhile (bindsAtLeast m) =
        (ops.dropWhile (bindsAtLeast k)).dropWhile (bindsAtLeast m) := by
  induction ops with
  | nil => exact ⟨rfl, rfl⟩
  | cons x ops ih =>
      by_cases hk : bindsAtLeast k x = true
      · have hm : bindsAtLeast m x = true := by
          simp only [bindsAtLeast, decide_eq_true_eq] at hk ⊢
          exact Nat.le_trans hmk hk
        simp only [List.takeWhile_cons_of_pos hk, List.dropWhile_cons_of_pos hk,
          List.takeWhile_cons_of_pos hm, List.dropWhile_cons_of_pos hm, List.cons_append, ih.1,
          ih.2, and_self]
      · simp only [List.takeWhile_cons_of_neg hk, List.dropWhile_cons_of_neg hk, List.nil_append,
          and_self]

/-- Operators with their operands, one list behind the other. -/
theorem OperatorTail.append {A B : List (TokenType × Syn)} {rs rs₁ rs' : List LexResult}
    (hA : OperatorTail A rs rs₁) (hB : OperatorTail B rs₁ rs') : OperatorTail (A ++ B) rs rs' := by
  induction hA with
  | nil => exact hB
  | cons hop hoperand _ ih => exact .cons hop hoperand (ih hB)

/-- The first operator behind a cut binds less tight than the threshold. -/
theorem head_dropWhile {m k : Nat} {ops : List (TokenType × Syn)} {z : TokenType × Syn}
    (hz : z ∈ ((ops.dropWhile (bindsAtLeast k)).takeWhile (bindsAtLeast m)).head?) :
    binopPrecedence z.1 < k := by
  induction ops with
  | nil => cases hz
  | cons x ops ih =>
      by_cases hk : bindsAtLeast k x = true
      · rw [List.dropWhile_cons_of_pos hk] at hz
        exact ih hz
      · rw [List.dropWhile_cons_of_neg hk, List.takeWhile_cons] at hz
        split at hz
        · cases hz
          simpa [bindsAtLeast] using hk
        · cases hz

/-- The operator loop with the threshold `m` reads the longest prefix of operators that bind at
least as tightly, and builds its tree behind `lhs`. -/
theorem derives_climb {t : TokenType} {rs' : List LexResult} (hend : lookahead rs' = some t)
    (ht : isBinop t = false) :
    ∀ (n : Nat) {ops : List (TokenType × Syn)}, ops.length ≤ n → ∀ (m : Nat) (lhs : Syn)
      {rs : List LexResult}, OperatorTail ops rs rs' →
      ∃ rs₁, OperatorTail (ops.takeWhile (bindsAtLeast m)) rs rs₁ ∧
        OperatorTail (ops.dropWhile (bindsAtLeast m)) rs₁ rs' ∧
        Derives (.climb m lhs) rs (referenceTree lhs (ops.takeWhile (bindsAtLeast m))) rs₁ := by
  intro n
  induction n with
  | zero =>
      intro ops hlen m lhs rs htail
      obtain rfl : ops = [] := List.eq_nil_of_length_eq_zero (by omega)
      cases htail
      exact ⟨_, .nil, .nil, .climbEnd hend fun hcont => by rw [hcont.1] at ht; cases ht⟩
  | succ n ih =>
      intro ops hlen m lhs rs htail
      cases htail with
      | nil => exact ⟨_, .nil, .nil, .climbEnd hend fun hcont => by rw [hcont.1] at ht; cases ht⟩
      | @cons op operand ops rest rs₁ _ hop hoperand hrest =>
          have hlen' : ops.length ≤ n := by simpa using hlen
          by_cases hm : bindsAtLeast m (op.type, operand) = true
          · have hprec : m ≤ binopPrecedence op.type := by simpa [bindsAtLeast] using hm
            -- the right operand takes the operators with the threshold of `op`
            obtain ⟨rs₂, htake, hdrop, hclimb⟩ := ih hlen' (nextMinAssoc op.type) operand hrest
            have hexpr : Derives (.expr (nextMinAssoc op.type)) rest _ rs₂ :=
              .expr hoperand hclimb
            -- the loop goes on with the node of `op` in hand
            have hdroplen : (ops.dropWhile (bindsAtLeast (nextMinAssoc op.type))).length ≤ n :=
              Nat.le_trans (List.length_dropWhile_le _ _) hlen'
            obtain ⟨rs₃, htake', hdrop', hclimb'⟩ :=
              ih hdroplen m (binopTree op.type lhs (referenceTree operand
                (ops.takeWhile (bindsAtLeast (nextMinAssoc op.type))))) hdrop
            obtain ⟨htakes, hdrops⟩ := takeWhile_bindsAtLeast
              (Nat.le_trans hprec (precedence_le_nextMinAssoc op.type)) ops
            have htree : referenceTree lhs ((op.type, operand) :: ops.takeWhile (bindsAtLeast m)) =
                referenceTree (binopTree op.type lhs (referenceTree operand
                    (ops.takeWhile (bindsAtLeast (nextMinAssoc op.type)))))
                  ((ops.dropWhile (bindsAtLeast (nextMinAssoc op.type))).takeWhile
                    (bindsAtLeast m)) := by
              have htight : ∀ z ∈ ops.takeWhile (bindsAtLeast (nextMinAssoc op.type)),
                  nextMinAssoc op.type ≤ binopPrecedence z.1 := fun z hz => by
                simpa [bindsAtLeast] using List.mem_takeWhile_imp hz
              rw [htakes]
              exact group_cons_append leftAssociative_of_precedence htight _ (Nat.le_refl _)
                fun z hz => head_dropWhile hz
            rw [List.takeWhile_cons_of_pos hm, List.dropWhile_cons_of_pos hm, htree, hdrops]
            refine ⟨rs₃, .cons hop hoperand ?_, hdrop', .climbOp ⟨hop, hprec⟩ hexpr hclimb'⟩
            rw [htakes]
            exact htake.append htake'
          · have hcont : ¬ Continues m op.type := fun hcont => hm (by
              simpa [bindsAtLeast] using hcont.2)
            rw [List.takeWhile_cons_of_neg hm, List.dropWhile_cons_of_neg hm]
            exact ⟨_, .nil, .cons hop hoperand hrest, .climbEnd rfl hcont⟩

/-- The reference tree of a sequence is the node of one of its operators over the reference trees
of what stands before and behind it. The operator has the least precedence, and it is the last
one with it where it is left associative and the first one otherwise. -/
theorem referenceTree_split (operand : Syn) {ops : List (TokenType × Syn)} (hne : ops ≠ []) :
    ∃ before x behind, ops = before ++ x :: behind ∧
      (∀ z ∈ ops, binopPrecedence x.1 ≤ binopPrecedence z.1) ∧
      (binopIsLeftAssociative x.1 → ∀ z ∈ behind, binopPrecedence x.1 < binopPrecedence z.1) ∧
      (¬ binopIsLeftAssociative x.1 →
        ∀ z ∈ before, binopPrecedence x.1 < binopPrecedence z.1) ∧
      referenceTree operand ops =
        binopTree x.1 (referenceTree operand before) (referenceTree x.2 behind) := by
  cases hsplit : splitLeast binopPrecedence binopIsLeftAssociative ops with
  | none => exact absurd (splitLeast_eq_none.mp hsplit) hne
  | some s =>
      obtain ⟨before, x, behind⟩ := s
      obtain ⟨hle, hlast, hfirst⟩ := splitLeast_least leftAssociative_of_precedence hsplit
      exact ⟨before, x, behind, eq_append_of_splitLeast hsplit, hle, hlast, hfirst,
        group_of_splitLeast hsplit⟩

/-! ### Operands of one token -/

/-- An identifier or an integer. -/
inductive Operand where
  | name (s : SourceString)
  | int (i : UInt32)

/-- What the token of an operand says. -/
def Operand.lexeme : Operand → Lexeme
  | .name s => .name s
  | .int i => .literal (.literalInt i)

/-- The tree of an operand. -/
def Operand.tree : Operand → Syn
  | .name s => .leaf (.symref s)
  | .int i => .leaf (.literal (.literalInt i))

/-- Operators with their right operands, as they are written. -/
def tailLexemes : List (TokenType × Operand) → List Lexeme
  | [] => []
  | x :: ops => .symbol x.1 :: x.2.lexeme :: tailLexemes ops

/-- Operators with the trees of their right operands. -/
def tailTrees (ops : List (TokenType × Operand)) : List (TokenType × Syn) :=
  ops.map fun x => (x.1, x.2.tree)

/-- What comes next does not continue an operand. -/
def EndsOperand (rs : List LexResult) : Prop :=
  ∃ t, lookahead rs = some t ∧ t ≠ .tokenDot ∧ t ≠ .tokenLparen

/-- An operand is a primary expression where nothing goes on with it. -/
theorem derives_operand {o : Operand} {tok : Token} {rs : List LexResult}
    (htok : Spec.lexeme tok = o.lexeme) (hrs : EndsOperand rs) :
    Derives .primary (.ok tok :: rs) o.tree rs := by
  obtain ⟨t, ht, hdot, hlparen⟩ := hrs
  cases o with
  | name s =>
      obtain ⟨htype, hval⟩ := name_of_lexeme htok
      rw [Operand.tree, ← hval]
      exact .atom (.symbol htype (.chainEnd ht hdot) (.callOptEnd ht hlparen))
  | int i =>
      obtain ⟨htype, hval⟩ := literal_of_lexeme htok
      rw [Operand.tree, ← hval]
      exact .atom (.literal htype)

/-- No operator is taken for a member or a call. -/
theorem isBinop_ends {t : TokenType} (h : isBinop t = true) :
    t ≠ .tokenDot ∧ t ≠ .tokenLparen := by
  constructor <;> (rintro rfl; exact absurd h (by decide))

/-- A sequence is read from the tokens it is written with. -/
theorem operatorTail_of_lexemes {rest : List LexResult} (hrest : EndsOperand rest) :
    ∀ {ops : List (TokenType × Operand)} {toks : List Token},
      toks.map Spec.lexeme = tailLexemes ops → (∀ x ∈ ops, isBinop x.1 = true) →
      OperatorTail (tailTrees ops) (toks.map .ok ++ rest) rest ∧
        EndsOperand (toks.map .ok ++ rest) := by
  intro ops
  induction ops with
  | nil =>
      intro toks htoks _
      obtain rfl : toks = [] := List.map_eq_nil_iff.mp htoks
      exact ⟨.nil, hrest⟩
  | cons x ops ih =>
      intro toks htoks hops
      obtain ⟨op, toks, rfl, hop, htoks⟩ := List.map_eq_cons_iff.mp htoks
      obtain ⟨tok, toks, rfl, htok, htoks⟩ := List.map_eq_cons_iff.mp htoks
      obtain ⟨htail, hends⟩ := ih htoks fun z hz => hops z (List.mem_cons_of_mem _ hz)
      have hbinop := hops x (by simp)
      -- the lexeme of an operator is the type of its token
      have htype : op.type = x.1 := type_of_lexeme hop
      have hcons : OperatorTail ((op.type, x.2.tree) :: tailTrees ops)
          (.ok op :: .ok tok :: (toks.map .ok ++ rest)) rest :=
        .cons (by rw [htype]; exact hbinop) (derives_operand htok hends) htail
      rw [htype] at hcons
      exact ⟨hcons, x.1, congrArg some htype, isBinop_ends hbinop⟩

section
variable {L : Type} [TokenSource L] [LawfulTokenSource L]

/-- `nulang__parse_expr` with the threshold `m` reads the longest prefix of a sequence of
operands and operators whose operators bind at least as tightly as `m`, and builds its
reference tree. -/
theorem parseExpr_climbs {m fuel : Nat} {t : TokenType} {operand : Syn}
    {ops : List (TokenType × Syn)} {rs rs₀ rs' : List LexResult} {p : Parser L} {a : Ast}
    (hfirst : Derives .primary rs operand rs₀) (htail : OperatorTail ops rs₀ rs')
    (hend : lookahead rs' = some t) (ht : isBinop t = false) (h : At p rs a) (hv : a.Valid)
    (hfree : (referenceTree operand (ops.takeWhile (bindsAtLeast m))).size ≤ a.free)
    (hfuel : rs.length < fuel) :
    ∃ rs₁ id p', OperatorTail (ops.takeWhile (bindsAtLeast m)) rs₀ rs₁ ∧
      OperatorTail (ops.dropWhile (bindsAtLeast m)) rs₁ rs' ∧
      (productions fuel).parseExpr m p = some (.ok id, p') ∧ At p' rs₁ p'.ast ∧
      p'.ast.syntaxAt id = referenceTree operand (ops.takeWhile (bindsAtLeast m)) := by
  obtain ⟨rs₁, htake, hdrop, hclimb⟩ :=
    derives_climb hend ht ops.length (Nat.le_refl _) m operand htail
  obtain ⟨id, p', hrun, hat, htree⟩ :=
    parseExpr_returns (.expr hfirst hclimb) h hv hfree hfuel
  exact ⟨rs₁, id, p', htake, hdrop, hrun, hat, htree⟩

end

/-- The source `a*2<b+c`. -/
def mixedSource : Source := ⟨['a', '*', '2', '<', 'b', '+', 'c'], by decide⟩

/-- The operators of `mixedSource` with their right operands. -/
def mixedTail : List (TokenType × Operand) :=
  [(.tokenMul, .int 2), (.tokenLess, .name (nameAt mixedSource 4)),
    (.tokenAdd, .name (nameAt mixedSource 6))]

/-- With the least precedence 2 the parse of `a*2<b+c` stops in front of the sum. -/
theorem parseExpr_climbs_mixedSource :
    ∃ rs₁ id p', lookahead rs₁ = some .tokenAdd ∧
      (productions 8).parseExpr 2 (startOn mixedSource) = some (.ok id, p') ∧
      At p' rs₁ p'.ast ∧
      p'.ast.syntaxAt id = binopTree .tokenMul (Operand.name (nameAt mixedSource 0)).tree
        (binopTree .tokenLess (Operand.int 2).tree (Operand.name (nameAt mixedSource 4)).tree) := by
  have hlexemes : (tokensOf mixedSource).map Spec.lexeme =
      (Operand.name (nameAt mixedSource 0)).lexeme :: tailLexemes mixedTail := by decide +kernel
  have hresults : resultsOf mixedSource = (tokensOf mixedSource).map .ok := by decide +kernel
  have hat : At (startOn mixedSource) (resultsOf mixedSource) (startOn mixedSource).ast :=
    at_parserStart mixedSource _ _ _
  obtain ⟨tok, toks, htokens, htok, htoks⟩ := List.map_eq_cons_iff.mp hlexemes
  have heof : EndsOperand [] := ⟨.tokenEof, rfl, by decide, by decide⟩
  obtain ⟨htail, hends⟩ := operatorTail_of_lexemes heof htoks (by decide)
  rw [List.append_nil] at htail hends
  rw [hresults, htokens, List.map_cons] at hat
  have hfuel : (Except.ok tok :: toks.map .ok : List LexResult).length < 8 := by
    have hlen := congrArg List.length hlexemes
    rw [htokens, List.length_map] at hlen
    rw [List.length_cons, List.length_map]
    exact hlen.trans_lt (by decide)
  obtain ⟨rs₁, id, p', -, hrest, hrun, hat', htree⟩ :=
    parseExpr_climbs (derives_operand htok hends) htail rfl rfl hat
      (astInit_cleared _ (by decide)).holdsModule.valid (m := 2) (by decide) hfuel
  refine ⟨rs₁, id, p', ?_, hrun, hat', htree⟩
  -- what is left begins with the operator that binds less
  change OperatorTail [(.tokenAdd, _)] rs₁ [] at hrest
  generalize TokenType.tokenAdd = t at hrest ⊢
  cases hrest
  rfl

end Nucleus.Proofs
