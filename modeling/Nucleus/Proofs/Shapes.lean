import Nucleus.Proofs.Parse
import Nucleus.Spec.Shape

/-!
# `Nucleus.Proofs.Shapes`: the syntax of a derivation is well shaped

`Derives.wellShaped`: a production turns well-shaped syntax into well-shaped syntax, with the
top nodes that its category calls for.
-/

set_option autoImplicit false

namespace Nucleus.Spec

open Nucleus.Lib
open Nucleus.Lang

/-- What the syntax that a production continues may be. -/
def Cat.Ready : Cat → Prop
  | .chain o => rootTypes o ∈ calleeTypes.map ([·])
  | .callOpt o => rootTypes o ∈ calleeTypes.map ([·])
  | .call o => rootTypes o ∈ calleeTypes.map ([·])
  | .climb _ l => ∃ t, rootTypes l = [t] ∧ isExpr t = true
  | _ => True

/-- The types of the top nodes that a production gives. -/
def Cat.Tops : Cat → List NodeType → Prop
  | .chain o, ts =>
      ts ∈ calleeTypes.map ([·]) ∧
        (rootTypes o ∈ placeTypes.map ([·]) → ts ∈ placeTypes.map ([·]))
  | .callOpt _, ts => ∃ t, ts = [t] ∧ isExpr t = true
  | .call _, ts => ts = [.astCall]
  | .climb _ _, ts => ∃ t, ts = [t] ∧ isExpr t = true
  | .args, ts => ∀ t ∈ ts, isExpr t = true
  | .atom, ts => ∃ t, ts = [t] ∧ isExpr t = true
  | .primary, ts => ∃ t, ts = [t] ∧ isExpr t = true
  | .expr _, ts => ∃ t, ts = [t] ∧ isExpr t = true
  | .params, ts => ∀ t ∈ ts, t = .astArgdecl
  | .paramsOpt, ts => ∀ t ∈ ts, t = .astArgdecl
  | .branch, ts => ∃ t, ts = [t, .astCompound] ∧ isExpr t = true
  | .elifs, ts => branchesShape ts = true ∧ ts.length % 2 = 0
  | .elseOpt, ts => ts = [] ∨ ts = [.astCompound]
  | .stmt, ts => ∃ t, ts = [t] ∧ t ∈ stmtTypes
  | .body _, ts => ∀ t ∈ ts, t ∈ stmtTypes

/-- The callee of a call, and what an assignment may change, is one node. -/
theorem place_of_mem {ts : List NodeType} (h : ts ∈ placeTypes.map ([·])) :
    ∃ t, ts = [t] ∧ t ∈ placeTypes := by
  obtain ⟨t, ht, rfl⟩ := List.mem_map.mp h
  exact ⟨t, rfl, ht⟩

/-- The shape of a callee is one type. -/
theorem callee_of_mem {ts : List NodeType} (h : ts ∈ calleeTypes.map ([·])) :
    ∃ t, ts = [t] ∧ t ∈ calleeTypes := by
  obtain ⟨t, ht, rfl⟩ := List.mem_map.mp h
  exact ⟨t, rfl, ht⟩

/-- A callee is an expression. -/
theorem isExpr_of_callee {t : NodeType} (h : t ∈ calleeTypes) : isExpr t = true := by
  simp only [calleeTypes, List.mem_cons, List.not_mem_nil, or_false] at h
  rcases h with rfl | rfl | rfl <;> decide

/-- A member of a well-shaped place is a place, and a builtin function is a builtin. -/
theorem wellShaped_memberOf {o o' : Syn} {name : SourceString} (h : memberOf o name = some o')
    (ho : WellShaped o) (hcallee : rootTypes o ∈ calleeTypes.map ([·])) :
    WellShaped o' ∧ rootTypes o' ∈ calleeTypes.map ([·]) ∧
      (rootTypes o ∈ placeTypes.map ([·]) → rootTypes o' ∈ placeTypes.map ([·])) := by
  have hmember : ∀ {k : Kind} {cs next : Syn}, o = .cons k cs next → k.type ∈ placeTypes →
      WellShaped (.tree (.member name) o) ∧
        rootTypes (.tree (.member name) o) ∈ calleeTypes.map ([·]) ∧
        (rootTypes o ∈ placeTypes.map ([·]) →
          rootTypes (.tree (.member name) o) ∈ placeTypes.map ([·])) := by
    intro k cs next hcons hk
    obtain ⟨t, ht, -⟩ := callee_of_mem hcallee
    have hroots : rootTypes o = [k.type] := by
      rw [hcons] at ht ⊢
      simp only [rootTypes, Forest.roots_cons, List.map_cons, List.cons.injEq] at ht ⊢
      exact ⟨trivial, ht.2⟩
    refine ⟨?_, by simp [calleeTypes, Kind.type], fun _ => by simp [placeTypes, Kind.type]⟩
    rw [wellShaped_tree, hroots]
    exact ⟨hk, ho⟩
  unfold memberOf at h
  cases o with
  | nil => cases h
  | cons k cs next =>
      simp only at h
      split at h
      · cases h
        exact hmember rfl (by simp [placeTypes, Kind.type])
      · cases h
        exact hmember rfl (by simp [placeTypes, Kind.type])
      · rename_i primitive
        obtain ⟨f, -, rfl⟩ := Option.map_eq_some_iff.mp h
        -- the node keeps its children, which a builtin has none of
        have hshape : childrenShape .astBuiltin (rootTypes cs) := ho.1
        have hcs : rootTypes cs = [] := by
          cases hroots : rootTypes cs with
          | nil => rfl
          | cons c rest =>
              rw [hroots] at hshape
              exact hshape.elim
        refine ⟨by rw [wellShaped_tree, hcs]; exact ⟨trivial, ho.2.1⟩,
          by simp [calleeTypes, Kind.type], ?_⟩
        intro hplace
        simp [rootTypes, placeTypes, Kind.type] at hplace
      · cases h

/-- Pairs of a condition and a body in front of branches. -/
theorem branchesShape_append : ∀ {as bs : List NodeType}, branchesShape as = true →
    as.length % 2 = 0 → branchesShape bs = true → branchesShape (as ++ bs) = true
  | [], _, _, _, hbs => hbs
  | [_], _, _, hlen, _ => by simp at hlen
  | e :: b :: rest, bs, has, hlen, hbs => by
      simp only [branchesShape, List.cons_append, Bool.and_eq_true] at has ⊢
      refine ⟨has.1, branchesShape_append has.2 ?_ hbs⟩
      simp only [List.length_cons] at hlen
      omega

/-- Parameters and the body behind them. -/
theorem fundeclShape_snoc {as : List NodeType} (h : ∀ t ∈ as, t = .astArgdecl) :
    fundeclShape (as ++ [.astCompound]) = true := by
  induction as with
  | nil => rfl
  | cons a as ih =>
      have hrest := ih fun t ht => h t (List.mem_cons_of_mem _ ht)
      have ha := h a (by simp)
      cases as with
      | nil => simp [fundeclShape, ha]
      | cons b as => simpa [fundeclShape, ha] using hrest

/-- The production keeps syntax well shaped, and gives the top nodes of its category. -/
def Shaped (c : Cat) (s : Syn) : Prop :=
  WellShaped c.before → c.Ready → WellShaped s ∧ c.Tops (rootTypes s)

/-- A member is a callee again. -/
theorem shaped_chainDot {o o' s : Syn} {name : SourceString}
    (hmember : memberOf o name = some o') (ih : Shaped (.chain o') s) :
    Shaped (.chain o) s := by
  intro hbefore hready
  obtain ⟨ho', hcallee, hplace⟩ := wellShaped_memberOf hmember hbefore hready
  obtain ⟨hs, htop, hkeep⟩ := ih ho' hcallee
  exact ⟨hs, htop, fun h => hkeep (hplace h)⟩

/-- A designator by itself is an expression. -/
theorem shaped_callOptEnd {o : Syn} : Shaped (.callOpt o) o := by
  intro hbefore hready
  obtain ⟨t, ht, hmem⟩ := callee_of_mem hready
  exact ⟨hbefore, t, ht, isExpr_of_callee hmem⟩

/-- A call is an expression. -/
theorem shaped_callOptCall {o s : Syn} (ih : Shaped (.call o) s) : Shaped (.callOpt o) s := by
  intro hbefore hready
  obtain ⟨hs, htop⟩ := ih hbefore hready
  exact ⟨hs, _, htop, by decide⟩

/-- A call may have its callee only. -/
theorem shaped_callNone {o : Syn} : Shaped (.call o) (.tree .call o) := by
  intro hbefore hready
  obtain ⟨t, ht, hmem⟩ := callee_of_mem hready
  refine ⟨(wellShaped_tree _ _).mpr ⟨?_, hbefore⟩, rfl⟩
  rw [ht]
  exact ⟨hmem, by simp⟩

/-- Behind the callee come expressions. -/
theorem shaped_callSome {o e as : Syn} (ihe : Shaped (.expr 0) e)
    (ihas : Shaped .args as) : Shaped (.call o) (.tree .call (o ++ (e ++ as))) := by
  intro hbefore hready
  obtain ⟨t, ht, hmem⟩ := callee_of_mem hready
  obtain ⟨he, te, hte, hexpr⟩ := ihe trivial trivial
  obtain ⟨has, htas⟩ := ihas trivial trivial
  refine ⟨(wellShaped_tree _ _).mpr ⟨?_, by simp [Cat.before] at hbefore; simp [*]⟩, rfl⟩
  rw [rootTypes_append, rootTypes_append, ht, hte]
  refine ⟨hmem, ?_⟩
  simpa using ⟨hexpr, htas⟩

/-- The arguments are expressions. -/
theorem shaped_argsComma {e as : Syn} (ihe : Shaped (.expr 0) e) (ihas : Shaped .args as) :
    Shaped .args (e ++ as) := by
  intro _ _
  obtain ⟨he, te, hte, hexpr⟩ := ihe trivial trivial
  obtain ⟨has, htas⟩ := ihas trivial trivial
  refine ⟨(wellShaped_append _ _).mpr ⟨he, has⟩, ?_⟩
  rw [rootTypes_append, hte]
  simpa [Cat.Tops] using ⟨hexpr, htas⟩

/-- A name is a callee. -/
theorem shaped_symbol {o s : Syn} {name : SourceString}
    (iho : Shaped (.chain (.leaf (.symref name))) o) (ihs : Shaped (.callOpt o) s) :
    Shaped .atom s := by
  intro _ _
  obtain ⟨ho, htop, -⟩ := iho ((wellShaped_leaf _).mpr trivial)
    (by simp [Cat.Ready, Kind.type, calleeTypes])
  exact ihs ho htop

/-- A primitive is a callee. -/
theorem shaped_constructor {o s : Syn} {primitive : Vm.Primitive}
    (iho : Shaped (.chain (.leaf (.builtin (.builtinConstructor primitive)))) o)
    (ihs : Shaped (.callOpt o) s) : Shaped .atom s := by
  intro _ _
  obtain ⟨ho, htop, -⟩ := iho ((wellShaped_leaf _).mpr trivial)
    (by simp [Cat.Ready, Kind.type, calleeTypes])
  exact ihs ho htop

/-- A unary operator has one expression. -/
theorem shaped_unop {s : Syn} {op : Unop} (ih : Shaped .primary s) :
    Shaped .primary (.tree (.unop op) s) := by
  intro _ _
  obtain ⟨hs, t, ht, hexpr⟩ := ih trivial trivial
  refine ⟨(wellShaped_tree _ _).mpr ⟨?_, hs⟩, _, rfl, rfl⟩
  rw [ht]
  exact hexpr

/-- What goes on with an expression gives an expression. -/
theorem shaped_expr {m : Nat} {l s : Syn} (ihl : Shaped .primary l) (ihs : Shaped (.climb m l) s) :
    Shaped (.expr m) s := by
  intro _ _
  obtain ⟨hl, htop⟩ := ihl trivial trivial
  exact ihs hl htop

/-- An operator has two expressions. -/
theorem shaped_climbOp {m n : Nat} {l r s : Syn} {op : Binop}
    (ihr : Shaped (.expr n) r)
    (ihs : Shaped (.climb m (.tree (.binop op) (l ++ r))) s) :
    Shaped (.climb m l) s := by
  -- both operands of an operator are expressions, and so is the operation
  intro hbefore hready
  obtain ⟨tl, htl, hl⟩ := hready
  obtain ⟨hr, tr, htr, hexpr⟩ := ihr trivial trivial
  refine ihs ((wellShaped_tree _ _).mpr ⟨?_, (wellShaped_append _ _).mpr ⟨hbefore, hr⟩⟩)
    ⟨_, rfl, rfl⟩
  rw [rootTypes_append, htl, htr]
  exact ⟨hl, hexpr⟩

/-- The parameters have no children. -/
theorem shaped_paramsComma {ty : Vartype} {ps : Syn} {name : SourceString}
    (ih : Shaped .params ps) : Shaped .params (.leaf (.argdecl name ty) ++ ps) := by
  intro _ _
  obtain ⟨hps, htop⟩ := ih trivial trivial
  refine ⟨(wellShaped_append _ _).mpr ⟨(wellShaped_leaf _).mpr trivial, hps⟩, ?_⟩
  rw [rootTypes_append]
  simpa [Cat.Tops, Kind.type] using htop

/-- A condition and a body. -/
theorem shaped_branch {c b : Syn} (ihc : Shaped (.expr 0) c)
    (ihb : Shaped (.body ifBodyStop) b) : Shaped .branch (c ++ .tree .compound b) := by
  intro _ _
  obtain ⟨hc, t, ht, hexpr⟩ := ihc trivial trivial
  obtain ⟨hb, htop⟩ := ihb trivial trivial
  refine ⟨(wellShaped_append _ _).mpr ⟨hc, (wellShaped_tree _ _).mpr ⟨htop, hb⟩⟩, t, ?_,
    hexpr⟩
  rw [rootTypes_append, ht]
  rfl

/-- A further branch is a further pair. -/
theorem shaped_elifsElif {b es : Syn} (ihb : Shaped .branch b) (ihes : Shaped .elifs es) :
    Shaped .elifs (b ++ es) := by
  intro _ _
  obtain ⟨hb, t, ht, hexpr⟩ := ihb trivial trivial
  obtain ⟨hes, hshape, hlen⟩ := ihes trivial trivial
  refine ⟨(wellShaped_append _ _).mpr ⟨hb, hes⟩, ?_⟩
  rw [rootTypes_append, ht]
  refine ⟨by simp [branchesShape, hexpr, hshape], ?_⟩
  simp only [List.length_append, List.length_cons, List.length_nil]
  omega

/-- The last branch is a body alone. -/
theorem shaped_elseSome {b : Syn} (ih : Shaped (.body ifBodyStop) b) :
    Shaped .elseOpt (.tree .compound b) := by
  intro _ _
  obtain ⟨hb, htop⟩ := ih trivial trivial
  exact ⟨(wellShaped_tree _ _).mpr ⟨htop, hb⟩, Or.inr rfl⟩

/-- A declaration has its expression. -/
theorem shaped_vardecl {ty : Vartype} {e : Syn} {name : SourceString} (ih : Shaped (.expr 0) e) :
    Shaped .stmt (.tree (.vardecl name ty) e) := by
  intro _ _
  obtain ⟨he, t, ht, hexpr⟩ := ih trivial trivial
  refine ⟨(wellShaped_tree _ _).mpr ⟨?_, he⟩, _, rfl, by simp [Kind.type, stmtTypes]⟩
  rw [ht]
  exact hexpr

/-- A function has its parameters and its body. -/
theorem shaped_fundecl {ty : Vartype} {ps b : Syn} {name : SourceString}
    (ihps : Shaped .paramsOpt ps) (ihb : Shaped (.body endStop) b) :
    Shaped .stmt (.tree (.fundecl name ty false) (ps ++ .tree .compound b)) := by
  intro _ _
  obtain ⟨hps, htps⟩ := ihps trivial trivial
  obtain ⟨hb, htb⟩ := ihb trivial trivial
  refine ⟨(wellShaped_tree _ _).mpr ⟨?_, (wellShaped_append _ _).mpr
    ⟨hps, (wellShaped_tree _ _).mpr ⟨htb, hb⟩⟩⟩, _, rfl, by simp [Kind.type, stmtTypes]⟩
  rw [rootTypes_append]
  exact fundeclShape_snoc htps

/-- A return has its expression. -/
theorem shaped_returnStmt {e : Syn} (ih : Shaped (.expr 0) e) :
    Shaped .stmt (.tree .returnStmt e) := by
  intro _ _
  obtain ⟨he, t, ht, hexpr⟩ := ih trivial trivial
  refine ⟨(wellShaped_tree _ _).mpr ⟨?_, he⟩, _, rfl, by simp [Kind.type, stmtTypes]⟩
  rw [ht]
  exact hexpr

/-- A conditional has its branches. -/
theorem shaped_ifStmt {b es l : Syn} (ihb : Shaped .branch b) (ihes : Shaped .elifs es)
    (ihl : Shaped .elseOpt l) : Shaped .stmt (.tree .ifStmt (b ++ (es ++ l))) := by
  intro _ _
  obtain ⟨hb, t, ht, hexpr⟩ := ihb trivial trivial
  obtain ⟨hes, hshape, hlen⟩ := ihes trivial trivial
  obtain ⟨hl, htl⟩ := ihl trivial trivial
  refine ⟨(wellShaped_tree _ _).mpr ⟨?_, (wellShaped_append _ _).mpr
    ⟨hb, (wellShaped_append _ _).mpr ⟨hes, hl⟩⟩⟩, _, rfl, by decide⟩
  -- the other branches keep the turn, since their number is even
  have hrest : branchesShape (rootTypes _ ++ rootTypes _) = true :=
    branchesShape_append hshape hlen (by rcases htl with h | h <;> rw [h] <;> decide)
  rw [rootTypes_append, rootTypes_append, ht]
  exact ⟨by simp, by simp [branchesShape, hexpr, hrest]⟩

/-- A loop has its condition and its body. -/
theorem shaped_whileStmt {c b : Syn} (ihc : Shaped (.expr 0) c) (ihb : Shaped (.body endStop) b) :
    Shaped .stmt (.tree .whileStmt (c ++ .tree .compound b)) := by
  intro _ _
  obtain ⟨hc, t, ht, hexpr⟩ := ihc trivial trivial
  obtain ⟨hb, htb⟩ := ihb trivial trivial
  refine ⟨(wellShaped_tree _ _).mpr ⟨?_, (wellShaped_append _ _).mpr
    ⟨hc, (wellShaped_tree _ _).mpr ⟨htb, hb⟩⟩⟩, _, rfl, by decide⟩
  rw [rootTypes_append, ht]
  exact ⟨hexpr, rfl⟩

/-- An assignment has its place and its expression. -/
theorem shaped_assign {o e : Syn} {name : SourceString}
    (iho : Shaped (.chain (.leaf (.symref name))) o) (ihe : Shaped (.expr 0) e) :
    Shaped .stmt (.tree .assign (o ++ e)) := by
  intro _ _
  obtain ⟨ho, -, hplace⟩ := iho ((wellShaped_leaf _).mpr trivial)
    (by simp [Cat.Ready, Kind.type, calleeTypes])
  obtain ⟨t, ht, hmem⟩ := place_of_mem (hplace (by simp [Kind.type, placeTypes]))
  obtain ⟨he, te, hte, hexpr⟩ := ihe trivial trivial
  refine ⟨(wellShaped_tree _ _).mpr ⟨?_, (wellShaped_append _ _).mpr ⟨ho, he⟩⟩, _, rfl,
    by decide⟩
  rw [rootTypes_append, ht, hte]
  exact ⟨hmem, hexpr⟩

/-- A call is a statement. -/
theorem shaped_callStmt {o s : Syn} {name : SourceString}
    (iho : Shaped (.chain (.leaf (.symref name))) o) (ihs : Shaped (.call o) s) :
    Shaped .stmt s := by
  intro _ _
  obtain ⟨ho, htop, -⟩ := iho ((wellShaped_leaf _).mpr trivial)
    (by simp [Cat.Ready, Kind.type, calleeTypes])
  obtain ⟨hs, htops⟩ := ihs ho htop
  exact ⟨hs, _, htops, by decide⟩

/-- A body has its statements. -/
theorem shaped_bodyStmt {stop : List TokenType} {s b : Syn} (ihs : Shaped .stmt s)
    (ihb : Shaped (.body stop) b) : Shaped (.body stop) (s ++ b) := by
  intro _ _
  obtain ⟨hs, t, ht, hmem⟩ := ihs trivial trivial
  obtain ⟨hb, htb⟩ := ihb trivial trivial
  refine ⟨(wellShaped_append _ _).mpr ⟨hs, hb⟩, ?_⟩
  rw [rootTypes_append, ht]
  simpa [Cat.Tops] using ⟨hmem, htb⟩

/-- The syntax of a derivation is well shaped. -/
theorem Derives.wellShaped {c : Cat} {rs rs' : List LexResult} {s : Syn}
    (h : Derives c rs s rs') : Shaped c s := by
  induction h with
  | chainEnd _ _ => exact fun hbefore hready => ⟨hbefore, hready, fun h => h⟩
  | chainDot _ _ hmember _ ih => exact shaped_chainDot hmember ih
  | callOptEnd _ _ => exact shaped_callOptEnd
  | callOptCall _ ih => exact shaped_callOptCall ih
  | callNone _ _ => exact shaped_callNone
  | callSome _ _ _ _ _ _ ihe ihas => exact shaped_callSome ihe ihas
  | argsEnd _ _ => exact fun _ _ => ⟨trivial, by simp [Cat.Tops]⟩
  | argsComma _ _ _ ihe ihas => exact shaped_argsComma ihe ihas
  | symbol _ _ _ iho ihs => exact shaped_symbol iho ihs
  | constructor _ _ _ iho ihs => exact shaped_constructor iho ihs
  | literal _ => exact fun _ _ => ⟨(wellShaped_leaf _).mpr trivial, _, rfl, rfl⟩
  | insert _ _ _ => exact fun _ _ => ⟨(wellShaped_leaf _).mpr trivial, _, rfl, rfl⟩
  | singleton _ _ _ => exact fun _ _ => ⟨(wellShaped_leaf _).mpr trivial, _, rfl, rfl⟩
  | paren _ _ _ ih => exact fun _ _ => ih trivial trivial
  | unop _ _ ih => exact shaped_unop ih
  | atom _ ih => exact fun _ _ => ih trivial trivial
  | expr _ _ ihl ihs => exact shaped_expr ihl ihs
  | climbEnd _ _ => exact fun hbefore hready => ⟨hbefore, hready⟩
  | climbOp _ _ _ ihr ihs => exact shaped_climbOp ihr ihs
  | paramsLast _ _ _ _ =>
      exact fun _ _ => ⟨(wellShaped_leaf _).mpr trivial, by simp [Cat.Tops, Kind.type]⟩
  | paramsComma _ _ _ _ ih => exact shaped_paramsComma ih
  | paramsNone _ => exact fun _ _ => ⟨trivial, by simp [Cat.Tops]⟩
  | paramsSome _ _ _ ih => exact fun _ _ => ih trivial trivial
  | branch _ _ _ ihc ihb => exact shaped_branch ihc ihb
  | elifsEnd _ _ => exact fun _ _ => ⟨trivial, by simp [Cat.Tops, branchesShape]⟩
  | elifsElif _ _ _ ihb ihes => exact shaped_elifsElif ihb ihes
  | elseNone _ _ => exact fun _ _ => ⟨trivial, Or.inl rfl⟩
  | elseSome _ _ ih => exact shaped_elseSome ih
  | vardecl _ _ _ _ _ ih => exact shaped_vardecl ih
  | fundecl _ _ _ _ _ _ _ _ ihps ihb => exact shaped_fundecl ihps ihb
  | returnStmt _ _ ih => exact shaped_returnStmt ih
  | ifStmt _ _ _ _ _ ihb ihes ihl => exact shaped_ifStmt ihb ihes ihl
  | whileStmt _ _ _ _ _ ihc ihb => exact shaped_whileStmt ihc ihb
  | assign _ _ _ _ iho ihe => exact shaped_assign iho ihe
  | callStmt _ _ _ iho ihs => exact shaped_callStmt iho ihs
  | bodyEnd _ _ => exact fun _ _ => ⟨trivial, by simp [Cat.Tops]⟩
  | bodyStmt _ _ _ _ ihs ihb => exact shaped_bodyStmt ihs ihb

end Nucleus.Spec
