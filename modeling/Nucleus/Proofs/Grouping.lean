import Nucleus.Proofs.Climbing

/-!
# `Nucleus.Proofs.Grouping`: comparisons and connectives

The type checker accepts a comparison of two numbers and a connective of two truth values, so
`a + b == c` should compare a sum and `a < b and c < d` should join two comparisons. But
`nulang__binop_precedence` lets comparisons and connectives bind tighter than arithmetic, all of
them equally tight, and they are right associative.

`Joined` is a comparison of two arithmetic expressions or a connective of two comparisons.
`parseExpr_joined_iff` says which of them are grouped at their operator.
-/

set_option autoImplicit false

namespace Nucleus.Proofs

open Nucleus.Lib
open Nucleus.Lib.Prog
open Nucleus.Lang
open Nucleus.Spec

/-! ### The specification -/

/-- The operators of an arithmetic expression. -/
def arithmeticOps : List TokenType := [.tokenAdd, .tokenMul, .tokenDiv]

/-- The comparison operators. -/
def comparisonOps : List TokenType :=
  [.tokenEqual, .tokenNequal, .tokenLequal, .tokenGequal, .tokenLess, .tokenGreater]

/-- The connectives. -/
def connectiveOps : List TokenType := [.tokenAnd, .tokenOr]

/-- An arithmetic expression without parentheses. -/
structure Arithmetic where
  operand : Operand
  tail : List (TokenType × Operand)
  ops : ∀ x ∈ tail, x.1 ∈ arithmeticOps

/-- A comparison of two arithmetic expressions. -/
structure Comparison where
  lhs : Arithmetic
  op : TokenType
  rhs : Arithmetic
  op_mem : op ∈ comparisonOps

/-- The operators of a comparison with their right operands. -/
def Comparison.tail (q : Comparison) : List (TokenType × Operand) :=
  q.lhs.tail ++ (q.op, q.rhs.operand) :: q.rhs.tail

/-- A comparison, or two comparisons with a connective between them. -/
inductive Joined where
  | comparison (q : Comparison)
  | connective (lhs : Comparison) (op : TokenType) (rhs : Comparison) (h : op ∈ connectiveOps)

/-- The first operand. -/
def Joined.operand : Joined → Operand
  | .comparison q => q.lhs.operand
  | .connective lhs _ _ _ => lhs.lhs.operand

/-- All operators with their right operands. -/
def Joined.tail : Joined → List (TokenType × Operand)
  | .comparison q => q.tail
  | .connective lhs op rhs _ => lhs.tail ++ (op, rhs.lhs.operand) :: rhs.tail

/-- What is written. -/
def Joined.lexemes (j : Joined) : List Lexeme := j.operand.lexeme :: tailLexemes j.tail

/-- The tree of an arithmetic expression alone. -/
def Arithmetic.tree (x : Arithmetic) : Syn := referenceTree x.operand.tree (tailTrees x.tail)

/-- The tree of a comparison alone. -/
def Comparison.tree (q : Comparison) : Syn := referenceTree q.lhs.operand.tree (tailTrees q.tail)

/-- The node of the joining operator over the trees of its sides alone. -/
def Joined.meant : Joined → Syn
  | .comparison q => binopTree q.op q.lhs.tree q.rhs.tree
  | .connective lhs op rhs _ => binopTree op lhs.tree rhs.tree

/-- A comparison of two operands. -/
def Joined.IsBare : Joined → Prop
  | .comparison q => q.lhs.tail = [] ∧ q.rhs.tail = []
  | .connective _ _ _ _ => False

/-! ### Operators -/

/-- The arithmetic operators have the levels below 3. -/
theorem precedence_arithmetic {t : TokenType} (h : t ∈ arithmeticOps) :
    isBinop t = true ∧ binopPrecedence t < 3 := by
  simp only [arithmeticOps, List.mem_cons, List.not_mem_nil, or_false] at h
  rcases h with rfl | rfl | rfl <;> decide

/-- The comparisons have the level 3. -/
theorem precedence_comparison {t : TokenType} (h : t ∈ comparisonOps) :
    isBinop t = true ∧ binopPrecedence t = 3 := by
  simp only [comparisonOps, List.mem_cons, List.not_mem_nil, or_false] at h
  rcases h with rfl | rfl | rfl | rfl | rfl | rfl <;> decide

/-- The connectives have the level 3, like the comparisons. -/
theorem precedence_connective {t : TokenType} (h : t ∈ connectiveOps) :
    isBinop t = true ∧ binopPrecedence t = 3 := by
  simp only [connectiveOps, List.mem_cons, List.not_mem_nil, or_false] at h
  rcases h with rfl | rfl <;> decide

/-- The token of an operator that was read from a token is this token. -/
theorem binopToken_binopFromToken {t : TokenType} (h : isBinop t = true) :
    binopToken (binopFromToken t) = t := by
  revert h
  cases t <;> decide

/-- There is no level above 3. -/
theorem binopPrecedence_le (t : TokenType) : binopPrecedence t ≤ 3 := by
  cases t <;> decide

/-- The nodes of two operators differ if the operators do. -/
theorem binopTree_inj {t t' : TokenType} {l r l' r' : Syn} (ht : isBinop t = true)
    (ht' : isBinop t' = true) (h : binopTree t l r = binopTree t' l' r') : t = t' := by
  have hop : binopFromToken t = binopFromToken t' := by
    injection h with hkind
    injection hkind
  rw [← binopToken_binopFromToken ht, hop, binopToken_binopFromToken ht']

/-- What stands between the operands are operators. -/
theorem Joined.isBinop (j : Joined) : ∀ x ∈ j.tail, isBinop x.1 = true := by
  have harith : ∀ x : Arithmetic, ∀ z ∈ x.tail, Lang.isBinop z.1 = true := fun x z hz =>
    (precedence_arithmetic (x.ops z hz)).1
  have hcomp : ∀ q : Comparison, ∀ z ∈ q.tail, Lang.isBinop z.1 = true := by
    intro q z hz
    rcases List.mem_append.mp hz with hz | hz
    · exact harith q.lhs z hz
    · rcases List.mem_cons.mp hz with rfl | hz
      · exact (precedence_comparison q.op_mem).1
      · exact harith q.rhs z hz
  cases j with
  | comparison q => exact hcomp q
  | connective lhs op rhs h =>
      intro z hz
      rcases List.mem_append.mp hz with hz | hz
      · exact hcomp lhs z hz
      · rcases List.mem_cons.mp hz with rfl | hz
        · exact (precedence_connective h).1
        · exact hcomp rhs z hz

/-- An operator and an operand are two lexemes. -/
theorem length_tailLexemes (ops : List (TokenType × Operand)) :
    (tailLexemes ops).length = 2 * ops.length := by
  induction ops with
  | nil => rfl
  | cons x ops ih =>
      simp only [tailLexemes, List.length_cons, ih]
      omega

/-! ### The tree of a sequence -/

/-- An operand is one node. -/
theorem size_operand (o : Operand) : o.tree.size = 1 := by
  cases o <;> rfl

/-- A sequence of one-token operands has as many nodes as tokens. -/
theorem size_referenceTree : ∀ (n : Nat) (o : Operand) {ops : List (TokenType × Operand)},
    ops.length ≤ n → (referenceTree o.tree (tailTrees ops)).size = 2 * ops.length + 1 := by
  intro n
  induction n with
  | zero =>
      intro o ops hlen
      obtain rfl : ops = [] := List.eq_nil_of_length_eq_zero (by omega)
      exact size_operand o
  | succ n ih =>
      intro o ops hlen
      by_cases hne : tailTrees ops = []
      · obtain rfl : ops = [] := List.map_eq_nil_iff.mp hne
        exact size_operand o
      · -- the operator that is split at joins the trees of both sides
        obtain ⟨before, x, behind, hops, -, -, -, htree⟩ := referenceTree_split o.tree hne
        obtain ⟨us, vs, rfl, rfl, hvs⟩ := List.map_eq_append_iff.mp hops
        obtain ⟨y, vs, rfl, rfl, rfl⟩ := List.map_eq_cons_iff.mp hvs
        rw [List.length_append, List.length_cons] at hlen ⊢
        have hus : (referenceTree o.tree (us.map fun x => (x.1, x.2.tree))).size =
            2 * us.length + 1 := ih o (by omega)
        have hvs : (referenceTree (y.1, y.2.tree).2 (vs.map fun x => (x.1, x.2.tree))).size =
            2 * vs.length + 1 := ih y.2 (by omega)
        rw [htree, binopTree, Forest.size_tree, Forest.size_append]
        omega

/-- The reference tree of one operator. -/
theorem referenceTree_single (t : TokenType) (a b : Syn) :
    referenceTree a [(t, b)] = binopTree t a b :=
  group_cons_of_le leftAssociative_of_precedence (by simp)

/-- An operator of the precedence 3 is the root of a tree only if no operator binds less tight,
and if no other operator of its precedence stands before it. -/
theorem root_of_referenceTree {o : Operand} {ops : List (TokenType × Operand)} {t : TokenType}
    {l r : Syn} (hops : ∀ x ∈ ops, isBinop x.1 = true) (ht : isBinop t = true)
    (hprec : binopPrecedence t = 3) (hne : ops ≠ [])
    (h : referenceTree o.tree (tailTrees ops) = binopTree t l r) :
    (∀ x ∈ ops, 3 ≤ binopPrecedence x.1) ∧ ∀ x ∈ ops.head?, x.1 = t := by
  have hne' : tailTrees ops ≠ [] := fun hnil => hne (List.map_eq_nil_iff.mp hnil)
  obtain ⟨before, x, behind, hsplit, hle, -, hfirst, htree⟩ := referenceTree_split o.tree hne'
  have hbinop : ∀ z ∈ tailTrees ops, isBinop z.1 = true := by
    intro z hz
    obtain ⟨y, hy, rfl⟩ := List.mem_map.mp hz
    exact hops y hy
  have hx : x ∈ tailTrees ops := by
    rw [hsplit]
    simp
  have hroot : x.1 = t := binopTree_inj (hbinop x hx) ht (htree.symm.trans h)
  rw [hroot, hprec] at hle
  have hall : ∀ y ∈ ops, 3 ≤ binopPrecedence y.1 := fun y hy =>
    hle (y.1, y.2.tree) (List.mem_map.mpr ⟨y, hy, rfl⟩)
  refine ⟨hall, fun y hy => ?_⟩
  -- operators of the precedence 3 are right associative: the root is the first one
  have hright : ¬ binopIsLeftAssociative x.1 := by
    rw [hroot, binopIsLeftAssociative_eq, hprec]
    decide
  have hhead : (tailTrees ops).head? = some (y.1, y.2.tree) := by
    rw [tailTrees, List.head?_map, hy]
    rfl
  cases before with
  | nil =>
      rw [hsplit, List.nil_append, List.head?_cons, Option.some.injEq] at hhead
      rw [← hroot, hhead]
  | cons z before =>
      rw [hsplit, List.cons_append, List.head?_cons, Option.some.injEq] at hhead
      have hlt := hfirst hright z (by simp)
      rw [hroot, hprec, hhead] at hlt
      have hupper : binopPrecedence y.1 ≤ 3 := binopPrecedence_le y.1
      exact absurd hlt (Nat.not_lt.mpr hupper)

/-- If all operators have the highest level, the sides of the comparison are single operands. -/
theorem Comparison.head_tail (q : Comparison) (hall : ∀ x ∈ q.tail, 3 ≤ binopPrecedence x.1) :
    q.lhs.tail = [] ∧ q.rhs.tail = [] := by
  have hempty : ∀ x : Arithmetic, (∀ z ∈ x.tail, 3 ≤ binopPrecedence z.1) → x.tail = [] := by
    intro x hx
    refine List.eq_nil_iff_forall_not_mem.mpr fun z hz => ?_
    exact absurd (hx z hz) (Nat.not_le.mpr (precedence_arithmetic (x.ops z hz)).2)
  exact ⟨hempty q.lhs fun z hz => hall z (List.mem_append_left _ hz),
    hempty q.rhs fun z hz => hall z (List.mem_append_right _ (List.mem_cons_of_mem _ hz))⟩

/-- The tree of the whole sequence is the one that is meant exactly for two bare operands. -/
theorem Joined.tree_eq_iff (j : Joined) :
    referenceTree j.operand.tree (tailTrees j.tail) = j.meant ↔ j.IsBare := by
  cases j with
  | comparison q =>
      obtain ⟨hbinop, hprec⟩ := precedence_comparison q.op_mem
      constructor
      · intro h
        exact q.head_tail (root_of_referenceTree (Joined.comparison q).isBinop hbinop hprec
          (by simp [Joined.tail, Comparison.tail]) h).1
      · rintro ⟨hlhs, hrhs⟩
        simp only [Joined.tail, Comparison.tail, Joined.operand, Joined.meant, Arithmetic.tree,
          hlhs, hrhs, List.nil_append]
        exact referenceTree_single _ _ _
  | connective lhs op rhs hop =>
      obtain ⟨hbinop, hprec⟩ := precedence_connective hop
      refine ⟨fun h => ?_, False.elim⟩
      obtain ⟨hall, hhead⟩ := root_of_referenceTree (Joined.connective lhs op rhs hop).isBinop
        hbinop hprec (by simp [Joined.tail]) h
      -- no arithmetic operator can be left, so the first operator is the comparison of `lhs`
      have hlhs := (lhs.head_tail fun x hx => hall x (List.mem_append_left _ hx)).1
      have hsame : lhs.op = op := hhead (lhs.op, lhs.rhs.operand) (by
        simp [Joined.tail, Comparison.tail, hlhs])
      have hmem := lhs.op_mem
      rw [hsame] at hmem
      simp only [connectiveOps, List.mem_cons, List.not_mem_nil, or_false] at hop
      rcases hop with rfl | rfl <;> exact absurd hmem (by decide)

section
variable {L : Type} [TokenSource L] [LawfulTokenSource L]

/-- `nulang__parse_expr` builds the reference tree of a sequence of one-token operands. -/
theorem parseExpr_sequence {o : Operand} {ops : List (TokenType × Operand)} {toks : List Token}
    {fuel : Nat} {p : Parser L} {a : Ast}
    (htoks : toks.map Spec.lexeme = o.lexeme :: tailLexemes ops)
    (hops : ∀ x ∈ ops, isBinop x.1 = true) (h : At p (toks.map .ok) a) (hv : a.Valid)
    (hfree : toks.length ≤ a.free) (hfuel : toks.length < fuel) :
    Returns ((productions fuel).parseExpr 0) p fun id p' =>
      At p' [] p'.ast ∧ p'.ast.syntaxAt id = referenceTree o.tree (tailTrees ops) := by
  have hlen := congrArg List.length htoks
  rw [List.length_map, List.length_cons, length_tailLexemes] at hlen
  obtain ⟨tok, toks, rfl, htok, htoks⟩ := List.map_eq_cons_iff.mp htoks
  have heof : EndsOperand [] := ⟨.tokenEof, rfl, by decide, by decide⟩
  obtain ⟨htail, hends⟩ := operatorTail_of_lexemes heof htoks hops
  rw [List.append_nil] at htail hends
  -- no operator is below the threshold 0
  have hall : ∀ x ∈ tailTrees ops, bindsAtLeast 0 x = true := fun x _ =>
    decide_eq_true (Nat.zero_le _)
  obtain ⟨rs₁, -, hrest, hclimb⟩ :=
    derives_climb (t := .tokenEof) rfl rfl _ (Nat.le_refl _) 0 o.tree htail
  rw [List.dropWhile_eq_nil_iff.mpr hall] at hrest
  rw [List.takeWhile_eq_self_iff.mpr hall] at hclimb
  cases hrest
  refine parseExpr_returns (.expr (derives_operand htok hends) hclimb) h hv ?_ ?_
  · rw [size_referenceTree ops.length o (Nat.le_refl _)]
    omega
  · rwa [List.length_cons, List.length_map]

/-- A comparison of arithmetic expressions, or a connective of comparisons, is grouped at its
operator exactly when it is a comparison of two operands. -/
theorem parseExpr_joined_iff {j : Joined} {toks : List Token} {fuel : Nat} {p : Parser L}
    {a : Ast} (htoks : toks.map Spec.lexeme = j.lexemes) (h : At p (toks.map .ok) a)
    (hv : a.Valid) (hfree : toks.length ≤ a.free) (hfuel : toks.length < fuel) :
    (∃ id p', (productions fuel).parseExpr 0 p = some (.ok id, p') ∧ At p' [] p'.ast ∧
      p'.ast.syntaxAt id = j.meant) ↔ j.IsBare := by
  obtain ⟨id, p', hrun, hat, htree⟩ := parseExpr_sequence htoks j.isBinop h hv hfree hfuel
  rw [← j.tree_eq_iff, ← htree]
  constructor
  · rintro ⟨id', p'', hrun', -, hmeant⟩
    obtain ⟨⟨rfl⟩, rfl⟩ := Prod.mk.inj (Option.some.inj (hrun.symm.trans hrun'))
    exact hmeant
  · exact fun hmeant => ⟨id, p', hrun, hat, hmeant⟩

end

/-- The source `a+b==c`. -/
def sumSource : Source := ⟨['a', '+', 'b', '=', '=', 'c'], by decide⟩

/-- The comparison that `sumSource` writes. -/
def sumComparison : Comparison where
  lhs := ⟨.name (nameAt sumSource 0), [(.tokenAdd, .name (nameAt sumSource 2))], by decide⟩
  op := .tokenEqual
  rhs := ⟨.name (nameAt sumSource 5), [], by decide⟩
  op_mem := by decide

/-- The sum `a + b` is not compared: the tokens of `a+b==c` are read as `a+(b==c)`. -/
theorem parseExpr_sumSource :
    (tokensOf sumSource).map .ok = resultsOf sumSource ∧
      (tokensOf sumSource).map Spec.lexeme = (Joined.comparison sumComparison).lexemes ∧
      (∃ id p', (productions 8).parseExpr 0 (startOn sumSource) = some (.ok id, p') ∧
        p'.ast.syntaxAt id = binopTree .tokenAdd (Operand.name (nameAt sumSource 0)).tree
          (binopTree .tokenEqual (Operand.name (nameAt sumSource 2)).tree
            (Operand.name (nameAt sumSource 5)).tree)) ∧
      ¬ ∃ id p', (productions 8).parseExpr 0 (startOn sumSource) = some (.ok id, p') ∧
        At p' [] p'.ast ∧ p'.ast.syntaxAt id = (Joined.comparison sumComparison).meant := by
  have hresults : (tokensOf sumSource).map .ok = resultsOf sumSource := by decide +kernel
  have hlexemes : (tokensOf sumSource).map Spec.lexeme =
      (Joined.comparison sumComparison).lexemes := by decide +kernel
  have hlen : (tokensOf sumSource).length = 5 := by
    rw [← List.length_map Spec.lexeme, hlexemes]
    rfl
  have hat : At (startOn sumSource) ((tokensOf sumSource).map .ok) (startOn sumSource).ast := by
    rw [hresults]
    exact at_parserStart sumSource _ _ _
  obtain ⟨id, p', hrun, -, htree⟩ := parseExpr_sequence hlexemes
    (Joined.comparison sumComparison).isBinop hat
    (astInit_cleared _ (by decide)).holdsModule.valid (hlen.trans_le (by decide))
    (hlen.trans_lt (show 5 < 8 by decide))
  refine ⟨hresults, hlexemes, ⟨id, p', hrun, htree⟩, ?_⟩
  rintro ⟨id', p'', hrun', -, hmeant⟩
  obtain ⟨⟨rfl⟩, rfl⟩ := Prod.mk.inj (Option.some.inj (hrun.symm.trans hrun'))
  -- the roots of the two trees differ
  have hroot : TokenType.tokenAdd = .tokenEqual :=
    binopTree_inj rfl rfl (htree.symm.trans hmeant)
  cases hroot

/-- The source `a<b`. -/
def lessSource : Source := ⟨['a', '<', 'b'], by decide⟩

/-- The comparison that `lessSource` writes. -/
def lessComparison : Comparison where
  lhs := ⟨.name (nameAt lessSource 0), [], by decide⟩
  op := .tokenLess
  rhs := ⟨.name (nameAt lessSource 2), [], by decide⟩
  op_mem := by decide

/-- The parse of a single comparison groups it as it is meant. -/
theorem parseExpr_joined_iff_lessSource :
    ∃ id p', (productions 4).parseExpr 0 (startOn lessSource) = some (.ok id, p') ∧
      At p' [] p'.ast ∧ p'.ast.syntaxAt id = (Joined.comparison lessComparison).meant := by
  have hresults : (tokensOf lessSource).map .ok = resultsOf lessSource := by decide +kernel
  have hat : At (startOn lessSource) ((tokensOf lessSource).map .ok) (startOn lessSource).ast := by
    rw [hresults]
    exact at_parserStart lessSource _ _ _
  exact (parseExpr_joined_iff (by decide +kernel) hat
    (astInit_cleared _ (by decide)).holdsModule.valid (by decide +kernel) (by decide +kernel)).mpr
    ⟨rfl, rfl⟩

end Nucleus.Proofs
