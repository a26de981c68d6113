import Nucleus.Spec.Grammar

/-!
# `Nucleus.Proofs.Derivations`: facts about the grammar

A derivation reads forwards: what it leaves is shorter than what it starts from by the width
of its production (`Derives.length_add_le`). The grammar is deterministic: a production derives
one piece of syntax from the results ahead (`Derives.unique`).
-/

set_option autoImplicit false

namespace Nucleus.Spec

open Nucleus.Lib
open Nucleus.Lang

/-- The number of results a production reads at least. -/
def Cat.width : Cat → Nat
  | .call _ | .atom | .primary | .expr _ | .params | .branch | .stmt => 1
  | _ => 0

/-- A type is read forwards. -/
theorem DerivesType.length_le {rs rs' : List LexResult} {ty : Vartype}
    (h : DerivesType rs ty rs') : rs'.length ≤ rs.length := by
  cases h with
  | primitive _ _ => simp only [List.length_cons]; omega
  | archetype _ _ => simp only [List.length_cons]; omega

/-- An optional type is read forwards. -/
theorem DerivesTypeOpt.length_le {rs rs' : List LexResult} {ty : Vartype}
    (h : DerivesTypeOpt rs ty rs') : rs'.length ≤ rs.length := by
  cases h with
  | absent _ _ => exact Nat.le_refl _
  | present h => exact h.length_le

/-- A derivation reads at least as many results as its production's width. -/
theorem Derives.length_add_le {c : Cat} {rs rs' : List LexResult} {s : Syn}
    (h : Derives c rs s rs') : rs'.length + c.width ≤ rs.length := by
  induction h with
  | paramsLast _ hty _ _ =>
      -- a type reads at least as much as it leaves
      have := hty.length_le
      simp only [Cat.width, List.length_cons]
      omega
  | paramsComma _ hty _ _ ih =>
      have := hty.length_le
      simp only [Cat.width, List.length_cons] at *
      omega
  | vardecl _ _ hty _ _ ih =>
      have := hty.length_le
      simp only [Cat.width, List.length_cons] at *
      omega
  | fundecl _ _ _ _ _ hty _ _ ih₁ ih₂ =>
      have := hty.length_le
      simp only [Cat.width, List.length_cons] at *
      omega
  | insert _ _ _ =>
      simp only [Cat.width, List.length_cons, List.length_tail]
      omega
  | singleton _ _ _ =>
      simp only [Cat.width, List.length_cons, List.length_tail]
      omega
  | _ =>
      simp only [Cat.width, List.length_cons] at *
      omega

/-! ### Determinism -/

/-- There is one type ahead. -/
theorem lookahead_inj {rs : List LexResult} {t t' : TokenType} (h : lookahead rs = some t)
    (h' : lookahead rs = some t') : t = t' := Option.some.inj (h.symm.trans h')

/-- A token of another type than the one ahead is not the next one. -/
theorem type_ne_of_lookahead {tok : Token} {rs : List LexResult} {t t' : TokenType}
    (ht : lookahead (.ok tok :: rs) = some t) (hne : t ≠ t') : tok.type ≠ t' :=
  fun htype => hne ((lookahead_inj ht rfl).trans htype)

/-- A type is read in one way. -/
theorem DerivesType.unique {rs rs₁ rs₂ : List LexResult} {ty₁ ty₂ : Vartype}
    (h₁ : DerivesType rs ty₁ rs₁) (h₂ : DerivesType rs ty₂ rs₂) : ty₁ = ty₂ ∧ rs₁ = rs₂ := by
  cases h₁ with
  | primitive hc ht =>
      cases h₂ with
      | primitive _ _ => exact ⟨rfl, rfl⟩
      | archetype _ ht' => simp_all
  | archetype hc ht =>
      cases h₂ with
      | primitive _ ht' => simp_all
      | archetype _ _ => exact ⟨rfl, rfl⟩

/-- A type begins with a colon. -/
theorem DerivesType.lookahead_eq {rs rs' : List LexResult} {ty : Vartype}
    (h : DerivesType rs ty rs') : lookahead rs = some .tokenColon := by
  cases h with
  | primitive hc _ => exact congrArg some hc
  | archetype hc _ => exact congrArg some hc

/-- The colon decides whether there is a type. -/
theorem DerivesTypeOpt.unique {rs rs₁ rs₂ : List LexResult} {ty₁ ty₂ : Vartype}
    (h₁ : DerivesTypeOpt rs ty₁ rs₁) (h₂ : DerivesTypeOpt rs ty₂ rs₂) :
    ty₁ = ty₂ ∧ rs₁ = rs₂ := by
  cases h₁ with
  | absent ht hne =>
      cases h₂ with
      | absent _ _ => exact ⟨rfl, rfl⟩
      | present h => exact absurd (lookahead_inj ht h.lookahead_eq) hne
  | present h =>
      cases h₂ with
      | absent ht hne => exact absurd (lookahead_inj ht h.lookahead_eq) hne
      | present h' => exact h.unique h'

/-- A call begins with a parenthesis. -/
theorem Derives.lookahead_call {o s : Syn} {rs rs' : List LexResult}
    (h : Derives (.call o) rs s rs') : lookahead rs = some .tokenLparen := by
  cases h with
  | callNone hl _ => exact congrArg some hl
  | callSome hl _ _ _ _ _ => exact congrArg some hl

/-- An atom starts with none of the tokens that start another primary. -/
theorem Derives.lookahead_atom {s : Syn} {rs rs' : List LexResult} (h : Derives .atom rs s rs') :
    ∃ t, lookahead rs = some t ∧ t ≠ .tokenLparen ∧ isUnop t = false ∧ isBinop t = false := by
  cases h with
  | symbol hi _ _ => exact ⟨_, congrArg some hi, by decide⟩
  | constructor hi _ _ => exact ⟨_, congrArg some hi, by decide⟩
  | literal hi => exact ⟨_, congrArg some hi, by decide⟩
  | insert hi _ _ => exact ⟨_, congrArg some hi, by decide⟩
  | singleton hi _ _ => exact ⟨_, congrArg some hi, by decide⟩

/-- A statement starts with no idle token. -/
theorem Derives.lookahead_stmt {s : Syn} {rs rs' : List LexResult} (h : Derives .stmt rs s rs') :
    ∃ t, lookahead rs = some t ∧ t ∉ idleTokens := by
  cases h with
  | vardecl hl _ _ _ _ => exact ⟨_, congrArg some hl, by decide⟩
  | fundecl hf _ _ _ _ _ _ _ => exact ⟨_, congrArg some hf, by decide⟩
  | returnStmt hr _ => exact ⟨_, congrArg some hr, by decide⟩
  | ifStmt hi _ _ _ _ => exact ⟨_, congrArg some hi, by decide⟩
  | whileStmt hw _ _ _ _ => exact ⟨_, congrArg some hw, by decide⟩
  | assign hi _ _ _ => exact ⟨_, congrArg some hi, by decide⟩
  | callStmt hi _ _ => exact ⟨_, congrArg some hi, by decide⟩

/-- The production derives nothing but `s` from the results `rs`, and leaves `rs'`. -/
def Decided (c : Cat) (rs : List LexResult) (s : Syn) (rs' : List LexResult) : Prop :=
  ∀ {s₂ : Syn} {rs₂ : List LexResult}, Derives c rs s₂ rs₂ → s = s₂ ∧ rs' = rs₂

section
variable {rs rs₁ rs₂ rs' : List LexResult} {t : TokenType} {ty : Vartype}

/-! ### Member chains and calls -/

/-- Without a dot ahead the chain has ended. -/
theorem decided_chainEnd {o : Syn} (ht : lookahead rs = some t) (hne : t ≠ .tokenDot) :
    Decided (.chain o) rs o rs := by
  intro s₂ rs₂ h₂
  cases h₂ with
  | chainEnd _ _ => exact ⟨rfl, rfl⟩
  | chainDot hd _ _ _ => exact absurd hd (type_ne_of_lookahead ht hne)

/-- A dot goes on with the chain, and its object has one member of the name. -/
theorem decided_chainDot {o o' s : Syn} {d m : Token} (hd : d.type = .tokenDot)
    (hmember : memberOf o m.value.toIdentifier = some o') (ih : Decided (.chain o') rs s rs') :
    Decided (.chain o) (.ok d :: .ok m :: rs) s rs' := by
  intro s₂ rs₂ h₂
  cases h₂ with
  | chainEnd ht hne => exact absurd hd (type_ne_of_lookahead ht hne)
  | chainDot _ _ hmember' h =>
      cases hmember.symm.trans hmember'
      exact ih h

/-- Without a parenthesis ahead there is no call. -/
theorem decided_callOptEnd {o : Syn} (ht : lookahead rs = some t) (hne : t ≠ .tokenLparen) :
    Decided (.callOpt o) rs o rs := by
  intro s₂ rs₂ h₂
  cases h₂ with
  | callOptEnd _ _ => exact ⟨rfl, rfl⟩
  | callOptCall h => exact absurd (lookahead_inj ht h.lookahead_call) hne

/-- A parenthesis ahead begins a call, so it is not left out. -/
theorem decided_callOptCall {o s : Syn} (h : Derives (.call o) rs s rs')
    (ih : Decided (.call o) rs s rs') : Decided (.callOpt o) rs s rs' := by
  intro s₂ rs₂ h₂
  cases h₂ with
  | callOptEnd ht hne => exact absurd (lookahead_inj ht h.lookahead_call) hne
  | callOptCall h' => exact ih h'

/-- The closing parenthesis begins no argument. -/
theorem decided_callNone {o : Syn} {l r : Token} (hr : r.type = .tokenRparen) :
    Decided (.call o) (.ok l :: .ok r :: rs) (.tree .call o) rs := by
  intro s₂ rs₂ h₂
  cases h₂ with
  | callNone _ _ => exact ⟨rfl, rfl⟩
  | callSome _ ht hne _ _ _ => exact absurd hr (type_ne_of_lookahead ht hne)

/-- An argument does not begin with the closing parenthesis. -/
theorem decided_callSome {o e as : Syn} {l r : Token} (ht : lookahead rs = some t)
    (hne : t ≠ .tokenRparen) (ihe : Decided (.expr 0) rs e rs₁)
    (ihas : Decided .args rs₁ as (.ok r :: rs')) :
    Decided (.call o) (.ok l :: rs) (.tree .call (o ++ (e ++ as))) rs' := by
  intro s₂ rs₂ h₂
  cases h₂ with
  | callNone _ hr' => exact absurd hr' (type_ne_of_lookahead ht hne)
  | callSome _ _ _ he' has' _ =>
      obtain ⟨rfl, rfl⟩ := ihe he'
      obtain ⟨rfl, hrest⟩ := ihas has'
      cases hrest
      exact ⟨rfl, rfl⟩

/-- Without a comma the arguments have ended. -/
theorem decided_argsEnd (ht : lookahead rs = some t) (hne : t ≠ .tokenComma) :
    Decided .args rs .nil rs := by
  intro s₂ rs₂ h₂
  cases h₂ with
  | argsEnd _ _ => exact ⟨rfl, rfl⟩
  | argsComma hc _ _ => exact absurd hc (type_ne_of_lookahead ht hne)

/-- A comma goes on with the arguments. -/
theorem decided_argsComma {e as : Syn} {c : Token} (hc : c.type = .tokenComma)
    (ihe : Decided (.expr 0) rs e rs₁) (ihas : Decided .args rs₁ as rs') :
    Decided .args (.ok c :: rs) (e ++ as) rs' := by
  intro s₂ rs₂ h₂
  cases h₂ with
  | argsEnd ht hne => exact absurd hc (type_ne_of_lookahead ht hne)
  | argsComma _ he' has' =>
      obtain ⟨rfl, rfl⟩ := ihe he'
      obtain ⟨rfl, rfl⟩ := ihas has'
      exact ⟨rfl, rfl⟩

/-! ### Expressions -/

/-- A name begins one kind of atom. -/
theorem decided_symbol {o s : Syn} {i : Token} (hi : i.type = .tokenIdentifier)
    (ihchain : Decided (.chain (.leaf (.symref i.value.toIdentifier))) rs o rs₁)
    (ihcall : Decided (.callOpt o) rs₁ s rs') : Decided .atom (.ok i :: rs) s rs' := by
  intro s₂ rs₂ h₂
  cases h₂ with
  | symbol _ hchain hcall =>
      obtain ⟨rfl, rfl⟩ := ihchain hchain
      exact ihcall hcall
  | _ => simp_all

/-- A primitive begins one kind of atom. -/
theorem decided_constructor {o s : Syn} {i : Token} (hi : i.type = .tokenPrimitive)
    (ihchain : Decided (.chain (.leaf (.builtin (.builtinConstructor i.value.toPrimitive)))) rs o
      rs₁) (ihcall : Decided (.callOpt o) rs₁ s rs') : Decided .atom (.ok i :: rs) s rs' := by
  intro s₂ rs₂ h₂
  cases h₂ with
  | constructor _ hchain hcall =>
      obtain ⟨rfl, rfl⟩ := ihchain hchain
      exact ihcall hcall
  | _ => simp_all

/-- A literal is one kind of atom. -/
theorem decided_literal {i : Token} (hi : i.type = .tokenLiteral) :
    Decided .atom (.ok i :: rs) (.leaf (.literal i.value.toLiteral)) rs := by
  intro s₂ rs₂ h₂
  cases h₂ with
  | literal _ => exact ⟨rfl, rfl⟩
  | _ => simp_all

/-- `insert` begins one kind of atom. -/
theorem decided_insert {i l n : Token} (hi : i.type = .tokenInsert) :
    Decided .atom (.ok i :: .ok l :: .ok n :: rs) (.leaf (.insert n.value.toIdentifier))
      rs.tail := by
  intro s₂ rs₂ h₂
  cases h₂ with
  | insert _ _ _ => exact ⟨rfl, rfl⟩
  | _ => simp_all

/-- `singleton` begins one kind of atom. -/
theorem decided_singleton {i l n : Token} (hi : i.type = .tokenSingleton) :
    Decided .atom (.ok i :: .ok l :: .ok n :: rs) (.leaf (.singleton n.value.toIdentifier))
      rs.tail := by
  intro s₂ rs₂ h₂
  cases h₂ with
  | singleton _ _ _ => exact ⟨rfl, rfl⟩
  | _ => simp_all

/-- A parenthesis begins no atom and is no operator. -/
theorem decided_paren {s : Syn} {l r : Token} (hl : l.type = .tokenLparen)
    (ih : Decided (.expr 1) rs s (.ok r :: rs')) : Decided .primary (.ok l :: rs) s rs' := by
  intro s₂ rs₂ h₂
  cases h₂ with
  | paren _ h _ =>
      obtain ⟨rfl, hrest⟩ := ih h
      cases hrest
      exact ⟨rfl, rfl⟩
  | unop hu _ => simp_all [isUnop]
  | atom h =>
      obtain ⟨t, ht, hne, -⟩ := h.lookahead_atom
      exact absurd hl (type_ne_of_lookahead ht hne)

/-- A unary operator begins no atom. -/
theorem decided_unop {s : Syn} {u : Token} (hu : isUnop u.type = true)
    (ih : Decided .primary rs s rs') :
    Decided .primary (.ok u :: rs) (.tree (.unop (unopFromToken u.type)) s) rs' := by
  intro s₂ rs₂ h₂
  cases h₂ with
  | paren hl _ _ => simp_all [isUnop]
  | unop _ h =>
      obtain ⟨rfl, rfl⟩ := ih h
      exact ⟨rfl, rfl⟩
  | atom h =>
      obtain ⟨t, ht, -, hunop, -⟩ := h.lookahead_atom
      rw [lookahead_inj ht rfl, hu] at hunop
      cases hunop

/-- An atom begins with no parenthesis and with no operator. -/
theorem decided_atom {s : Syn} (h : Derives .atom rs s rs') (ih : Decided .atom rs s rs') :
    Decided .primary rs s rs' := by
  intro s₂ rs₂ h₂
  obtain ⟨t, ht, hne, hunop, -⟩ := h.lookahead_atom
  cases h₂ with
  | paren hl _ _ => exact absurd hl (type_ne_of_lookahead ht hne)
  | unop hu _ =>
      rw [lookahead_inj ht rfl, hu] at hunop
      cases hunop
  | atom h' => exact ih h'

/-- The operand is decided, and then what goes on with it. -/
theorem decided_expr {m : Nat} {l s : Syn} (ihl : Decided .primary rs l rs₁)
    (ihs : Decided (.climb m l) rs₁ s rs') : Decided (.expr m) rs s rs' := by
  intro s₂ rs₂ h₂
  cases h₂ with
  | expr hl hs =>
      obtain ⟨rfl, rfl⟩ := ihl hl
      exact ihs hs

/-- What stops the climb is a test of the type ahead. -/
theorem decided_climbEnd {m : Nat} {l : Syn} (ht : lookahead rs = some t)
    (hstop : ¬ Continues m t) : Decided (.climb m l) rs l rs := by
  intro s₂ rs₂ h₂
  cases h₂ with
  | climbEnd _ _ => exact ⟨rfl, rfl⟩
  | climbOp hcont _ _ => exact absurd hcont (lookahead_inj ht rfl ▸ hstop)

/-- An operator that goes on with the expression does not stop the climb. -/
theorem decided_climbOp {m : Nat} {l r s : Syn} {o : Token} (hcont : Continues m o.type)
    (ihr : Decided (.expr (nextMinAssoc o.type)) rs r rs₁)
    (ihs : Decided (.climb m (.tree (.binop (binopFromToken o.type)) (l ++ r))) rs₁ s rs') :
    Decided (.climb m l) (.ok o :: rs) s rs' := by
  intro s₂ rs₂ h₂
  cases h₂ with
  | climbEnd ht hstop => exact absurd hcont (lookahead_inj ht rfl ▸ hstop)
  | climbOp _ hr hs =>
      obtain ⟨rfl, rfl⟩ := ihr hr
      exact ihs hs

/-! ### Parameters and branches -/

/-- The type is decided, and no comma is behind it. -/
theorem decided_paramsLast {i : Token} (hty : DerivesType rs ty rs') (ht : lookahead rs' = some t)
    (hne : t ≠ .tokenComma) :
    Decided .params (.ok i :: rs) (.leaf (.argdecl i.value.toIdentifier ty)) rs' := by
  intro s₂ rs₂ h₂
  cases h₂ with
  | paramsLast _ hty' _ _ =>
      obtain ⟨rfl, rfl⟩ := hty.unique hty'
      exact ⟨rfl, rfl⟩
  | paramsComma _ hty' hc _ =>
      obtain ⟨-, rfl⟩ := hty.unique hty'
      exact absurd hc (type_ne_of_lookahead ht hne)

/-- The type is decided, and the comma behind it goes on. -/
theorem decided_paramsComma {ps : Syn} {i c : Token} (hty : DerivesType rs ty (.ok c :: rs₁))
    (hc : c.type = .tokenComma) (ih : Decided .params rs₁ ps rs') :
    Decided .params (.ok i :: rs) (.leaf (.argdecl i.value.toIdentifier ty) ++ ps) rs' := by
  intro s₂ rs₂ h₂
  cases h₂ with
  | paramsLast _ hty' ht hne =>
      obtain ⟨-, rfl⟩ := hty.unique hty'
      exact absurd hc (type_ne_of_lookahead ht hne)
  | paramsComma _ hty' _ h =>
      obtain ⟨rfl, hrest⟩ := hty.unique hty'
      cases hrest
      obtain ⟨rfl, rfl⟩ := ih h
      exact ⟨rfl, rfl⟩

/-- The closing parenthesis begins no parameter. -/
theorem decided_paramsNone (ht : lookahead rs = some .tokenRparen) :
    Decided .paramsOpt rs .nil rs := by
  intro s₂ rs₂ h₂
  cases h₂ with
  | paramsNone _ => exact ⟨rfl, rfl⟩
  | paramsSome ht' hne _ => exact absurd (lookahead_inj ht' ht) hne

/-- A parameter does not begin with the closing parenthesis. -/
theorem decided_paramsSome {ps : Syn} (ht : lookahead rs = some t) (hne : t ≠ .tokenRparen)
    (ih : Decided .params rs ps rs') : Decided .paramsOpt rs ps rs' := by
  intro s₂ rs₂ h₂
  cases h₂ with
  | paramsNone ht' => exact absurd (lookahead_inj ht ht') hne
  | paramsSome _ _ h => exact ih h

/-- The condition is decided, and then the body. -/
theorem decided_branch {c b : Syn} {t : Token} (ihc : Decided (.expr 0) rs c (.ok t :: rs₁))
    (ihb : Decided (.body ifBodyStop) rs₁ b rs') :
    Decided .branch rs (c ++ .tree .compound b) rs' := by
  intro s₂ rs₂ h₂
  cases h₂ with
  | branch hc _ hb =>
      obtain ⟨rfl, hrest⟩ := ihc hc
      cases hrest
      obtain ⟨rfl, rfl⟩ := ihb hb
      exact ⟨rfl, rfl⟩

/-- Without `elif` the branches have ended. -/
theorem decided_elifsEnd (ht : lookahead rs = some t) (hne : t ≠ .tokenElif) :
    Decided .elifs rs .nil rs := by
  intro s₂ rs₂ h₂
  cases h₂ with
  | elifsEnd _ _ => exact ⟨rfl, rfl⟩
  | elifsElif hi _ _ => exact absurd hi (type_ne_of_lookahead ht hne)

/-- `elif` begins a further branch. -/
theorem decided_elifsElif {b es : Syn} {i : Token} (hi : i.type = .tokenElif)
    (ihb : Decided .branch rs b rs₁) (ihes : Decided .elifs rs₁ es rs') :
    Decided .elifs (.ok i :: rs) (b ++ es) rs' := by
  intro s₂ rs₂ h₂
  cases h₂ with
  | elifsEnd ht hne => exact absurd hi (type_ne_of_lookahead ht hne)
  | elifsElif _ hb hes =>
      obtain ⟨rfl, rfl⟩ := ihb hb
      obtain ⟨rfl, rfl⟩ := ihes hes
      exact ⟨rfl, rfl⟩

/-- Without `else` there is no last branch. -/
theorem decided_elseNone (ht : lookahead rs = some t) (hne : t ≠ .tokenElse) :
    Decided .elseOpt rs .nil rs := by
  intro s₂ rs₂ h₂
  cases h₂ with
  | elseNone _ _ => exact ⟨rfl, rfl⟩
  | elseSome hi _ => exact absurd hi (type_ne_of_lookahead ht hne)

/-- `else` begins the last branch. -/
theorem decided_elseSome {b : Syn} {i : Token} (hi : i.type = .tokenElse)
    (ih : Decided (.body ifBodyStop) rs b rs') :
    Decided .elseOpt (.ok i :: rs) (.tree .compound b) rs' := by
  intro s₂ rs₂ h₂
  cases h₂ with
  | elseNone ht hne => exact absurd hi (type_ne_of_lookahead ht hne)
  | elseSome _ hb =>
      obtain ⟨rfl, rfl⟩ := ih hb
      exact ⟨rfl, rfl⟩

/-! ### Statements -/

/-- `let` begins one kind of statement. -/
theorem decided_vardecl {e : Syn} {l i a : Token} (hl : l.type = .tokenLet)
    (hty : DerivesTypeOpt rs ty (.ok a :: rs₁)) (ih : Decided (.expr 0) rs₁ e rs') :
    Decided .stmt (.ok l :: .ok i :: rs) (.tree (.vardecl i.value.toIdentifier ty) e) rs' := by
  intro s₂ rs₂ h₂
  cases h₂ with
  | vardecl _ _ hty' _ he =>
      obtain ⟨rfl, hrest⟩ := hty.unique hty'
      cases hrest
      obtain ⟨rfl, rfl⟩ := ih he
      exact ⟨rfl, rfl⟩
  | _ => simp_all

/-- `function` begins one kind of statement. -/
theorem decided_fundecl {ps b : Syn} {f i l r e : Token} (hf : f.type = .tokenFunction)
    (hty : DerivesTypeOpt rs₁ ty rs₂) (ihps : Decided .paramsOpt rs ps (.ok r :: rs₁))
    (ihb : Decided (.body endStop) rs₂ b (.ok e :: rs')) :
    Decided .stmt (.ok f :: .ok i :: .ok l :: rs) (.tree (.fundecl i.value.toIdentifier ty false)
      (ps ++ .tree .compound b)) rs' := by
  intro s₂ rs₂ h₂
  cases h₂ with
  | fundecl _ _ _ hps _ hty' hb _ =>
      obtain ⟨rfl, hrest⟩ := ihps hps
      cases hrest
      obtain ⟨rfl, rfl⟩ := hty.unique hty'
      obtain ⟨rfl, hrest⟩ := ihb hb
      cases hrest
      exact ⟨rfl, rfl⟩
  | _ => simp_all

/-- `return` begins one kind of statement. -/
theorem decided_returnStmt {e : Syn} {r : Token} (hr : r.type = .tokenReturn)
    (ih : Decided (.expr 0) rs e rs') : Decided .stmt (.ok r :: rs) (.tree .returnStmt e) rs' := by
  intro s₂ rs₂ h₂
  cases h₂ with
  | returnStmt _ he =>
      obtain ⟨rfl, rfl⟩ := ih he
      exact ⟨rfl, rfl⟩
  | _ => simp_all

/-- `if` begins one kind of statement. -/
theorem decided_ifStmt {b es l : Syn} {i e : Token} (hi : i.type = .tokenIf)
    (ihb : Decided .branch rs b rs₁) (ihes : Decided .elifs rs₁ es rs₂)
    (ihl : Decided .elseOpt rs₂ l (.ok e :: rs')) :
    Decided .stmt (.ok i :: rs) (.tree .ifStmt (b ++ (es ++ l))) rs' := by
  intro s₂ rs₂ h₂
  cases h₂ with
  | ifStmt _ hb hes hl _ =>
      obtain ⟨rfl, rfl⟩ := ihb hb
      obtain ⟨rfl, rfl⟩ := ihes hes
      obtain ⟨rfl, hrest⟩ := ihl hl
      cases hrest
      exact ⟨rfl, rfl⟩
  | _ => simp_all

/-- `while` begins one kind of statement. -/
theorem decided_whileStmt {c b : Syn} {w d e : Token} (hw : w.type = .tokenWhile)
    (ihc : Decided (.expr 0) rs c (.ok d :: rs₁))
    (ihb : Decided (.body endStop) rs₁ b (.ok e :: rs')) :
    Decided .stmt (.ok w :: rs) (.tree .whileStmt (c ++ .tree .compound b)) rs' := by
  intro s₂ rs₂ h₂
  cases h₂ with
  | whileStmt _ hc _ hb _ =>
      obtain ⟨rfl, hrest⟩ := ihc hc
      cases hrest
      obtain ⟨rfl, hrest⟩ := ihb hb
      cases hrest
      exact ⟨rfl, rfl⟩
  | _ => simp_all

/-- Behind the chain an assignment has its sign, and a call a parenthesis. -/
theorem decided_assign {o e : Syn} {i a : Token} (hi : i.type = .tokenIdentifier)
    (ha : a.type = .tokenAssign)
    (iho : Decided (.chain (.leaf (.symref i.value.toIdentifier))) rs o (.ok a :: rs₁))
    (ihe : Decided (.expr 0) rs₁ e rs') :
    Decided .stmt (.ok i :: rs) (.tree .assign (o ++ e)) rs' := by
  intro s₂ rs₂ h₂
  cases h₂ with
  | assign _ ho _ he =>
      obtain ⟨rfl, hrest⟩ := iho ho
      cases hrest
      obtain ⟨rfl, rfl⟩ := ihe he
      exact ⟨rfl, rfl⟩
  | callStmt _ ho hcall =>
      -- the same designator, but `=` behind it is no parenthesis
      obtain ⟨rfl, rfl⟩ := iho ho
      have hl := lookahead_inj hcall.lookahead_call rfl
      rw [ha] at hl
      cases hl
  | _ => simp_all

/-- Behind the chain a call has a parenthesis, and an assignment its sign. -/
theorem decided_callStmt {o s : Syn} {i : Token} (hi : i.type = .tokenIdentifier)
    (hcall : Derives (.call o) rs₁ s rs')
    (iho : Decided (.chain (.leaf (.symref i.value.toIdentifier))) rs o rs₁)
    (ihs : Decided (.call o) rs₁ s rs') : Decided .stmt (.ok i :: rs) s rs' := by
  intro s₂ rs₂ h₂
  cases h₂ with
  | assign _ ho ha _ =>
      obtain ⟨rfl, rfl⟩ := iho ho
      have hl := lookahead_inj hcall.lookahead_call rfl
      rw [ha] at hl
      cases hl
  | callStmt _ ho hcall' =>
      obtain ⟨rfl, rfl⟩ := iho ho
      exact ihs hcall'
  | _ => simp_all

/-- A body ends at the first token that stops it. -/
theorem decided_bodyEnd {stop : List TokenType} (ht : lookahead rs = some t) (hstop : t ∈ stop) :
    Decided (.body stop) rs .nil rs := by
  intro s₂ rs₂ h₂
  cases h₂ with
  | bodyEnd _ _ => exact ⟨rfl, rfl⟩
  | bodyStmt ht' hne _ _ => exact absurd hstop (lookahead_inj ht' ht ▸ hne)

/-- A statement does not begin with a token that stops the body. -/
theorem decided_bodyStmt {stop : List TokenType} {s b : Syn} (ht : lookahead rs = some t)
    (hne : t ∉ stop) (ihs : Decided .stmt rs s rs₁) (ihb : Decided (.body stop) rs₁ b rs') :
    Decided (.body stop) rs (s ++ b) rs' := by
  intro s₂ rs₂ h₂
  cases h₂ with
  | bodyEnd ht' hstop => exact absurd hstop (lookahead_inj ht ht' ▸ hne)
  | bodyStmt _ _ hs hb =>
      obtain ⟨rfl, rfl⟩ := ihs hs
      obtain ⟨rfl, rfl⟩ := ihb hb
      exact ⟨rfl, rfl⟩

end

/-- A production derives one piece of syntax from the results ahead, and leaves the same. -/
theorem Derives.unique {c : Cat} {rs rs₁ : List LexResult} {s₁ : Syn} (h₁ : Derives c rs s₁ rs₁) :
    Decided c rs s₁ rs₁ := by
  induction h₁ with
  | chainEnd ht hne => exact decided_chainEnd ht hne
  | chainDot hd _ hmember _ ih => exact decided_chainDot hd hmember ih
  | callOptEnd ht hne => exact decided_callOptEnd ht hne
  | callOptCall h ih => exact decided_callOptCall h ih
  | callNone _ hr => exact decided_callNone hr
  | callSome _ ht hne _ _ _ ihe ihas => exact decided_callSome ht hne ihe ihas
  | argsEnd ht hne => exact decided_argsEnd ht hne
  | argsComma hc _ _ ihe ihas => exact decided_argsComma hc ihe ihas
  | symbol hi _ _ ihchain ihcall => exact decided_symbol hi ihchain ihcall
  | constructor hi _ _ ihchain ihcall => exact decided_constructor hi ihchain ihcall
  | literal hi => exact decided_literal hi
  | insert hi _ _ => exact decided_insert hi
  | singleton hi _ _ => exact decided_singleton hi
  | paren hl _ _ ih => exact decided_paren hl ih
  | unop hu _ ih => exact decided_unop hu ih
  | atom h ih => exact decided_atom h ih
  | expr _ _ ihl ihs => exact decided_expr ihl ihs
  | climbEnd ht hstop => exact decided_climbEnd ht hstop
  | climbOp hcont _ _ ihr ihs => exact decided_climbOp hcont ihr ihs
  | paramsLast _ hty ht hne => exact decided_paramsLast hty ht hne
  | paramsComma _ hty hc _ ih => exact decided_paramsComma hty hc ih
  | paramsNone ht => exact decided_paramsNone ht
  | paramsSome ht hne _ ih => exact decided_paramsSome ht hne ih
  | branch _ _ _ ihc ihb => exact decided_branch ihc ihb
  | elifsEnd ht hne => exact decided_elifsEnd ht hne
  | elifsElif hi _ _ ihb ihes => exact decided_elifsElif hi ihb ihes
  | elseNone ht hne => exact decided_elseNone ht hne
  | elseSome hi _ ih => exact decided_elseSome hi ih
  | vardecl hl _ hty _ _ ih => exact decided_vardecl hl hty ih
  | fundecl hf _ _ _ _ hty _ _ ihps ihb => exact decided_fundecl hf hty ihps ihb
  | returnStmt hr _ ih => exact decided_returnStmt hr ih
  | ifStmt hi _ _ _ _ ihb ihes ihl => exact decided_ifStmt hi ihb ihes ihl
  | whileStmt hw _ _ _ _ ihc ihb => exact decided_whileStmt hw ihc ihb
  | assign hi _ ha _ iho ihe => exact decided_assign hi ha iho ihe
  | callStmt hi _ hcall iho ihs => exact decided_callStmt hi hcall iho ihs
  | bodyEnd ht hstop => exact decided_bodyEnd ht hstop
  | bodyStmt ht hne _ _ ihs ihb => exact decided_bodyStmt ht hne ihs ihb

end Nucleus.Spec
