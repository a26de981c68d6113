import Nucleus.Proofs.Expressions
import Nucleus.Spec.Prediction

/-!
# `Nucleus.Proofs.ParserTable`: derivations are runs of the table

What the machine of the table does at one goal (`goes_…`), and from this that it follows every
derivation of the grammar, and pays one node of the arena for each of the syntax
(`realizes_of_derives`).
-/

set_option autoImplicit false

namespace Nucleus.Proofs

open Nucleus.Lib
open Nucleus.Lang
open Nucleus.Spec
open Nucleus.Lib.Predictive (PaidRuns advance)

/-! ### Choices -/

section
variable {g : Goal} {gs m : List Goal} {rs : List LexResult} {l : Ledger Span}

/-- The type ahead is that of a token. -/
theorem exists_ahead {t : TokenType} (h : lookahead rs = some t) :
    ∃ token, ahead rs.head? = some token ∧ token.type = t := by
  rcases rs with _ | ⟨_ | token, rs⟩
  · exact ⟨Token.eof, rfl, Option.some.inj h⟩
  · cases h
  · exact ⟨token, rfl, Option.some.inj h⟩

/-- The token ahead has the type ahead. -/
theorem lookahead_of_ahead {token : Token} (h : ahead rs.head? = some token) :
    lookahead rs = some token.type := by
  rcases rs with _ | ⟨_ | t, rs⟩ <;> cases h <;> rfl

/-- A choice that does not look at the token comes first. -/
theorem select_always {choice : Bool × List Goal} (h : g.always rs.head? = some choice) :
    parserTable.select g rs.head? = some choice := by
  show (g.always rs.head? <|> (ahead rs.head?).bind g.table) = _
  rw [h]
  rfl

/-- The other choices look at the token ahead. -/
theorem select_ahead {token : Token} (hnone : g.always rs.head? = none)
    (hahead : ahead rs.head? = some token) : parserTable.select g rs.head? = g.table token := by
  show (g.always rs.head? <|> (ahead rs.head?).bind g.table) = _
  rw [hnone, hahead]
  rfl

/-- Most steps cost nothing, and nothing is noted of them. -/
theorem pay_free {h : Option LexResult} (hprice : parserTariff.price g = 0)
    (hremark : parserTariff.remark g h = none) : parserTariff.pay g h l = some l := by
  rw [Tariff.pay, hprice, hremark, if_pos (Nat.zero_le _)]
  rfl

/-- A step that the table chooses by a token is free. -/
theorem pay_table {token : Token} {choice : Bool × List Goal} {h : Option LexResult}
    (htable : g.table token = some choice) : parserTariff.pay g h l = some l := by
  cases g with
  | node => cases htable
  | skip => cases htable
  | _ => exact pay_free rfl rfl

/-- The machine replaces a goal whatever comes. -/
theorem goes_always (hprice : parserTariff.price g = 0)
    (halways : g.always rs.head? = expand m) :
    parserTable.PaidRuns parserTariff ((g :: gs, rs), l) ((m ++ gs, rs), l) := by
  refine PaidRuns.choose (select_always halways) ?_ (PaidRuns.refl _)
  cases g with
  | skip =>
      rw [Goal.always] at halways
      split at halways <;> cases halways
  | node => cases hprice
  | _ => exact pay_free rfl rfl

/-- The machine chooses by the token. -/
theorem goes_choosing {token : Token} {taken : Bool} (hnone : g.always rs.head? = none)
    (hahead : ahead rs.head? = some token) (htable : g.table token = some (taken, m)) :
    parserTable.PaidRuns parserTariff ((g :: gs, rs), l) ((m ++ gs, advance taken rs), l) :=
  PaidRuns.choose ((select_ahead hnone hahead).trans htable) (pay_table htable) (PaidRuns.refl _)

/-- The machine replaces the goal. -/
theorem goes {token : Token} (hnone : g.always rs.head? = none)
    (hahead : ahead rs.head? = some token) (htable : g.table token = expand m) :
    parserTable.PaidRuns parserTariff ((g :: gs, rs), l) ((m ++ gs, rs), l) :=
  goes_choosing hnone hahead htable

/-- The machine takes the token. -/
theorem goes_taking {token : Token} (hnone : g.always rs.head? = none)
    (hahead : ahead rs.head? = some token) (htable : g.table token = take) :
    parserTable.PaidRuns parserTariff ((g :: gs, rs), l) ((gs, rs.tail), l) :=
  goes_choosing hnone hahead htable

/-- The machine replaces the goal by what begins with the token, and takes the token. -/
theorem goes_tok {token : Token} {a : TokenType} (hnone : g.always rs.head? = none)
    (hahead : ahead rs.head? = some token) (ht : token.type = a)
    (htable : g.table token = expand (.tok a :: m)) :
    parserTable.PaidRuns parserTariff ((g :: gs, rs), l) ((m ++ gs, rs.tail), l) :=
  (goes hnone hahead htable).trans (goes_taking rfl hahead (if_pos ht))

/-- The machine pays for a node. -/
theorem goes_node {b : Nat} {remark : Option Span} :
    parserTable.PaidRuns parserTariff ((.node :: gs, rs), ⟨b + 1, remark⟩)
      ((gs, rs), ⟨b, remark⟩) := by
  refine PaidRuns.choose (select_always rfl) ?_ (PaidRuns.refl _)
  show (if 1 ≤ b + 1 then some _ else none) = _
  rw [if_pos (Nat.le_add_left 1 b)]
  rfl

/-- The machine skips an item, and notes the span of the error that is dropped. -/
theorem goes_skip (hcomes : endless rs.head? = false) :
    parserTable.PaidRuns parserTariff ((.skip :: gs, rs), l)
      ((gs, rs.tail), ⟨l.budget, (droppedSpan rs.head?).or l.remark⟩) := by
  have hchoice : Goal.always .skip rs.head? = take := by
    rw [Goal.always, hcomes]
    rfl
  refine PaidRuns.choose (select_always hchoice) ?_ (PaidRuns.refl _)
  show (if 0 ≤ l.budget then some _ else none) = _
  rw [if_pos (Nat.zero_le _)]
  rfl

end

/-! ### Runs that pay for nodes -/

/-- With `b` free nodes the machine comes from `c` to `c'`, and `b'` are left. -/
def Affords (c : Config) (b : Nat) (c' : Config) (b' : Nat) : Prop :=
  ∀ remark, ∃ remark',
    parserTable.PaidRuns parserTariff (c, ⟨b, remark⟩) (c', ⟨b', remark'⟩)

namespace Affords

variable {g : Goal} {gs m : List Goal} {rs : List LexResult} {c c' c'' : Config} {b b' b'' : Nat}

/-- No step costs nothing. -/
theorem refl (c : Config) (b : Nat) : Affords c b c b := fun remark => ⟨remark, PaidRuns.refl _⟩

/-- Runs one after the other, with the budget handed on. -/
theorem trans (h : Affords c b c' b') (h' : Affords c' b' c'' b'') : Affords c b c'' b'' := by
  intro remark
  obtain ⟨remark', hrun⟩ := h remark
  obtain ⟨remark'', hrun'⟩ := h' remark'
  exact ⟨remark'', hrun.trans hrun'⟩

/-- A run whose first steps leave the ledger as it is. -/
theorem step (hgoes : ∀ l, parserTable.PaidRuns parserTariff (c, l) (c', l))
    (h : Affords c' b c'' b') : Affords c b c'' b' := by
  intro remark
  obtain ⟨remark', hrun⟩ := h remark
  exact ⟨remark', (hgoes _).trans hrun⟩

/-- A node costs one. -/
theorem node (h : Affords (gs, rs) b c b') : Affords (.node :: gs, rs) (b + 1) c b' := by
  intro remark
  obtain ⟨remark', hrun⟩ := h remark
  exact ⟨remark', goes_node.trans hrun⟩

/-- An item is skipped for nothing. -/
theorem skip (hcomes : endless rs.head? = false) (h : Affords (gs, rs.tail) b c b') :
    Affords (.skip :: gs, rs) b c b' := by
  intro remark
  obtain ⟨remark', hrun⟩ := h ((droppedSpan rs.head?).or remark)
  exact ⟨remark', (goes_skip hcomes).trans hrun⟩

/-- A goal that is replaced whatever comes. -/
theorem always (hprice : parserTariff.price g = 0) (halways : g.always rs.head? = expand m)
    (h : Affords (m ++ gs, rs) b c b') : Affords (g :: gs, rs) b c b' :=
  step (fun _ => goes_always hprice halways) h

/-- A goal is replaced by what the table says for the next token. -/
theorem ahead {token : Token} (hnone : g.always rs.head? = none)
    (hahead : Spec.ahead rs.head? = some token) (htable : g.table token = expand m)
    (h : Affords (m ++ gs, rs) b c b') : Affords (g :: gs, rs) b c b' :=
  step (fun _ => goes hnone hahead htable) h

/-- The same where the table needs the type of the token only. -/
theorem lookahead {t : TokenType} (hnone : g.always rs.head? = none)
    (ht : Spec.lookahead rs = some t)
    (htable : ∀ token : Token, token.type = t → g.table token = expand m)
    (h : Affords (m ++ gs, rs) b c b') : Affords (g :: gs, rs) b c b' := by
  obtain ⟨token, hahead, htype⟩ := exists_ahead ht
  exact ahead hnone hahead (htable token htype) h

/-- A token that the table takes. -/
theorem taking {token : Token} (hnone : g.always (some (.ok token)) = none)
    (htable : g.table token = some (true, m)) (h : Affords (m ++ gs, rs) b c b') :
    Affords (g :: gs, .ok token :: rs) b c b' :=
  step (fun _ => goes_choosing hnone rfl htable) h

/-- A token that is read. -/
theorem tok {t : TokenType} {token : Token} (ht : token.type = t) (h : Affords (gs, rs) b c b') :
    Affords (.tok t :: gs, .ok token :: rs) b c b' :=
  taking rfl (if_pos ht) h

end Affords

/-! ### Designators and types -/

/-- A node without children is a designator when its kind is one. -/
theorem isDesignated_leaf {k : Kind} {d : Designator} (h : k.designator = some d) :
    IsDesignated (.leaf k) d := ⟨k, .nil, rfl, h⟩

/-- The members of a designator, what they are and the nodes that they add. -/
theorem designated_memberOf {o o' : Syn} {name : SourceString} {d : Designator}
    (hd : IsDesignated o d) (h : memberOf o name = some o') :
    d.hasMember name = true ∧ IsDesignated o' d.next ∧ o'.size = o.size + d.nodes := by
  obtain ⟨k, cs, rfl, hk⟩ := hd
  cases k with
  | symref =>
      cases hk
      cases h
      exact ⟨rfl, ⟨_, _, rfl, rfl⟩, rfl⟩
  | member =>
      cases hk
      cases h
      exact ⟨rfl, ⟨_, _, rfl, rfl⟩, rfl⟩
  | builtin b =>
      cases b with
      | builtinConstructor primitive =>
          cases hk
          obtain ⟨f, hf, rfl⟩ := Option.map_eq_some_iff.mp h
          refine ⟨?_, ⟨_, _, rfl, rfl⟩, rfl⟩
          -- a constructor has the members that are found among its functions
          show (findBuiltinFunction primitive name).isSome = true
          rw [hf]
          rfl
      | _ => cases h
  | _ => cases hk

/-- A name that the designator has is that of a member. -/
theorem exists_memberOf {o : Syn} {name : SourceString} {d : Designator}
    (hd : IsDesignated o d) (h : d.hasMember name = true) : ∃ o', memberOf o name = some o' := by
  obtain ⟨k, cs, rfl, hk⟩ := hd
  cases k with
  | symref => exact ⟨_, rfl⟩
  | member => exact ⟨_, rfl⟩
  | builtin b =>
      cases b with
      | builtinConstructor primitive =>
          cases hk
          obtain ⟨f, hf⟩ := Option.isSome_iff_exists.mp h
          exact ⟨_, congrArg (Option.map _) hf⟩
      | builtinConstant => cases hk
      | builtinFunction f =>
          cases hk
          cases h
  | _ => cases hk

/-- A type costs nothing. -/
theorem affords_type {ty : Vartype} {rs rs' : List LexResult} {gs : List Goal} {b : Nat}
    (h : DerivesType rs ty rs') : Affords (.type :: gs, rs) b (gs, rs') b := by
  refine Affords.always rfl rfl ?_
  cases h with
  | primitive hc ht =>
      exact Affords.tok hc (Affords.taking rfl (if_pos (Or.inl ht)) (Affords.refl _ b))
  | archetype hc ht =>
      exact Affords.tok hc (Affords.taking rfl (if_pos (Or.inr ht)) (Affords.refl _ b))

/-- A goal that is empty in front of the next token. -/
theorem affords_nothing {g : Goal} {gs : List Goal} {b : Nat} {rs : List LexResult} {t : TokenType}
    (hnone : g.always rs.head? = none) (ht : lookahead rs = some t)
    (htable : ∀ token : Token, token.type = t → g.table token = expand []) :
    Affords (g :: gs, rs) b (gs, rs) b :=
  Affords.lookahead hnone ht htable (Affords.refl _ b)

/-- An optional type costs nothing. -/
theorem affords_typeOpt {ty : Vartype} {rs rs' : List LexResult} {gs : List Goal} {b : Nat}
    (h : DerivesTypeOpt rs ty rs') : Affords (.typeOpt :: gs, rs) b (gs, rs') b := by
  cases h with
  | absent ht hne =>
      exact affords_nothing rfl ht (fun _ htype => if_neg (by rw [htype]; exact hne))
  | present hty =>
      have hcolon : lookahead rs = some .tokenColon := by
        cases hty with
        | primitive hc ht => exact congrArg some hc
        | archetype hc ht => exact congrArg some hc
      exact Affords.lookahead rfl hcolon (fun _ htype => if_pos htype) (affords_type hty)

/-! ### Derivations are runs -/

/-- The goal of a production reads what is derived, and pays for the nodes that it adds to the
syntax in hand. -/
def Realizes (c : Cat) (rs : List LexResult) (s : Syn) (rs' : List LexResult) : Prop :=
  ∀ {g : Goal}, Codes c g → ∃ j, s.size = c.before.size + j ∧
    ∀ (gs : List Goal) (k : Nat), Affords (g :: gs, rs) (k + j) (gs, rs') k

section
variable {rs rs₁ rs₂ rs' : List LexResult} {o o' e l r s ps b es as cond : Syn} {gs : List Goal}

/-- A production with no syntax in hand. -/
theorem Realizes.runs {c : Cat} {g : Goal} {k : Nat} (h : Realizes c rs s rs') (hc : Codes c g)
    (hbefore : c.before = .nil) : Affords (g :: gs, rs) (k + s.size) (gs, rs') k := by
  obtain ⟨j, hj, hruns⟩ := h hc
  rw [hbefore, Forest.size_nil, Nat.zero_add] at hj
  rw [hj]
  exact hruns gs k

/-- A production with no syntax in hand, from the run of its goal. -/
theorem realizes_of_runs {c : Cat} {g : Goal} (hcodes : ∀ {g' : Goal}, Codes c g' → g' = g)
    (hbefore : c.before = .nil)
    (h : ∀ (gs : List Goal) (k : Nat), Affords (g :: gs, rs) (k + s.size) (gs, rs') k) :
    Realizes c rs s rs' := by
  intro g' hc
  obtain rfl := hcodes hc
  refine ⟨s.size, ?_, h⟩
  rw [hbefore]
  exact (Nat.zero_add _).symm

/-- A production that ends in front of the next token. -/
theorem realizes_nothing {c : Cat} {t : TokenType} (ht : lookahead rs = some t)
    (hchoice : ∀ {g : Goal}, Codes c g → g.always rs.head? = none ∧
      ∀ token : Token, token.type = t → g.table token = expand []) :
    Realizes c rs c.before rs := by
  intro g hc
  obtain ⟨hnone, htable⟩ := hchoice hc
  exact ⟨0, rfl, fun gs k => affords_nothing hnone ht htable⟩

/-- What is left behind a tree is spent on the next one. -/
theorem add_size_append (k : Nat) (s s' : Syn) : k + (s ++ s').size = k + s'.size + s.size := by
  rw [Forest.size_append]
  omega

/-! #### Designators and calls -/

/-- The member of a place costs a node, and a builtin function nothing. -/
theorem affords_member {d : Designator} {m : Token} {k : Nat} (hm : m.type = .tokenIdentifier)
    (hhas : d.hasMember m.value.toIdentifier = true) :
    Affords (.member d :: gs, .ok m :: rs) (k + d.nodes) (gs, rs) k := by
  refine Affords.taking rfl (if_pos ⟨hm, hhas⟩) ?_
  cases d with
  | place => exact Affords.node (Affords.refl _ k)
  | _ => exact Affords.refl _ k

/-- A chain that goes on pays for the nodes of its member. -/
theorem realizes_chainDot {d m : Token} (hd : d.type = .tokenDot) (hm : m.type = .tokenIdentifier)
    (hmember : memberOf o m.value.toIdentifier = some o') (h : Realizes (.chain o') rs s rs') :
    Realizes (.chain o) (.ok d :: .ok m :: rs) s rs' := by
  rintro _ ⟨⟩
  rename_i des hdes
  -- the name is one that the designator has, and that of a place takes a node
  obtain ⟨hhas, hnext, hsize⟩ := designated_memberOf hdes hmember
  obtain ⟨j, hj, hruns⟩ := h (.chain hnext)
  refine ⟨j + des.nodes, ?_, fun gs k => ?_⟩
  · show s.size = o.size + (j + des.nodes)
    rw [hj, Cat.before, hsize]
    omega
  · rw [← Nat.add_assoc]
    exact Affords.taking rfl (if_pos hd) ((affords_member hm hhas).trans (hruns gs k))

/-- The parenthesis ahead chooses the call. -/
theorem realizes_callOptCall (h : Realizes (.call o) rs s rs')
    (ht : lookahead rs = some .tokenLparen) : Realizes (.callOpt o) rs s rs' := by
  rintro _ ⟨⟩
  obtain ⟨j, hj, hruns⟩ := h .call
  exact ⟨j, hj, fun gs k => Affords.lookahead rfl ht (fun _ htype => if_pos htype) (hruns gs k)⟩

/-- A call without arguments pays for its own node. -/
theorem realizes_callNone {l r : Token} (hl : l.type = .tokenLparen) (hr : r.type = .tokenRparen) :
    Realizes (.call o) (.ok l :: .ok r :: rs) (.tree .call o) rs := by
  rintro _ ⟨⟩
  refine ⟨1, rfl, fun gs k => Affords.always rfl rfl (Affords.node (Affords.tok hl ?_))⟩
  refine Affords.ahead rfl rfl (if_pos hr) ?_
  refine Affords.ahead rfl rfl (if_neg (by rw [hr]; decide)) ?_
  exact Affords.tok hr (Affords.refl _ k)

/-- A call pays for its own node and its arguments. -/
theorem realizes_callSome {l r : Token} {t : TokenType} (hl : l.type = .tokenLparen)
    (ht : lookahead rs = some t) (hne : t ≠ .tokenRparen) (he : Realizes (.expr 0) rs e rs₁)
    (has : Realizes .args rs₁ as (.ok r :: rs')) (hr : r.type = .tokenRparen) :
    Realizes (.call o) (.ok l :: rs) (.tree .call (o ++ (e ++ as))) rs' := by
  rintro _ ⟨⟩
  refine ⟨as.size + e.size + 1, ?_, fun gs k => ?_⟩
  · simp only [Forest.size_tree, Forest.size_append, Cat.before]
    omega
  · rw [← Nat.add_assoc, ← Nat.add_assoc]
    refine Affords.always rfl rfl (Affords.node (Affords.tok hl ?_))
    refine Affords.lookahead rfl ht (fun _ htype => if_neg (by rw [htype]; exact hne)) ?_
    exact (he.runs .expr rfl).trans ((has.runs .args rfl).trans (Affords.tok hr (Affords.refl _ k)))

/-- Each argument pays for itself. -/
theorem realizes_argsComma {c : Token} (hc : c.type = .tokenComma)
    (he : Realizes (.expr 0) rs e rs₁) (has : Realizes .args rs₁ as rs') :
    Realizes .args (.ok c :: rs) (e ++ as) rs' := by
  refine realizes_of_runs (g := .args) (by rintro _ ⟨⟩; rfl) rfl fun gs k => ?_
  rw [add_size_append]
  refine Affords.ahead rfl rfl (if_pos hc) (Affords.tok hc ?_)
  exact (he.runs .expr rfl).trans (has.runs .args rfl)

/-! #### Atoms and expressions -/

/-- The node of a designator, and its members. -/
theorem Realizes.chain {k : Kind} {d : Designator} {n : Nat}
    (h : Realizes (.chain (.leaf k)) rs o rs') (hk : k.designator = some d) :
    Affords (.node :: .chain d :: gs, rs) (n + o.size) (gs, rs') n := by
  obtain ⟨j, hj, hruns⟩ := h (.chain (isDesignated_leaf hk))
  rw [show o.size = j + 1 from hj.trans (Nat.add_comm 1 j), ← Nat.add_assoc]
  exact Affords.node (hruns gs n)

/-- A name pays for its node, and the chain and the call for theirs. -/
theorem realizes_symbol {i : Token} (hi : i.type = .tokenIdentifier)
    (ho : Realizes (.chain (.leaf (.symref i.value.toIdentifier))) rs o rs₁)
    (hs : Realizes (.callOpt o) rs₁ s rs') : Realizes .atom (.ok i :: rs) s rs' := by
  refine realizes_of_runs (g := .atom) (by rintro _ ⟨⟩; rfl) rfl fun gs k => ?_
  obtain ⟨j, hj, hruns⟩ := hs .callOpt
  rw [hj, Nat.add_comm _ j, ← Nat.add_assoc]
  refine Affords.ahead rfl rfl (atomTable_identifier hi) (Affords.tok hi ?_)
  exact (ho.chain rfl).trans (hruns gs k)

/-- A primitive pays for its node, and the chain and the call for theirs. -/
theorem realizes_constructor {i : Token} (hi : i.type = .tokenPrimitive)
    (ho : Realizes (.chain (.leaf (.builtin (.builtinConstructor i.value.toPrimitive)))) rs o rs₁)
    (hs : Realizes (.callOpt o) rs₁ s rs') : Realizes .atom (.ok i :: rs) s rs' := by
  refine realizes_of_runs (g := .atom) (by rintro _ ⟨⟩; rfl) rfl fun gs k => ?_
  obtain ⟨j, hj, hruns⟩ := hs .callOpt
  rw [hj, Nat.add_comm _ j, ← Nat.add_assoc]
  refine Affords.ahead rfl rfl (atomTable_primitive hi) (Affords.tok hi ?_)
  exact (ho.chain rfl).trans (hruns gs k)

/-- A literal pays for its node. -/
theorem realizes_literal {i : Token} {k : Kind} (hi : i.type = .tokenLiteral) :
    Realizes .atom (.ok i :: rs) (.leaf k) rs := by
  refine realizes_of_runs (g := .atom) (by rintro _ ⟨⟩; rfl) rfl fun gs n => ?_
  refine Affords.taking rfl (m := [.node]) (atomTable_literal hi) ?_
  exact Affords.node (Affords.refl _ n)

/-- `insert(name)` and `singleton(name)`, whatever stands behind the name. -/
theorem realizes_insertOrSingleton {a : TokenType} {i l n : Token} {k : Kind} (hi : i.type = a)
    (hl : l.type = .tokenLparen) (hn : n.type = .tokenIdentifier)
    (hcomes : endless rs.head? = false)
    (htable : atomTable i =
      expand [.tok a, .tok .tokenLparen, .tok .tokenIdentifier, .node, .skip]) :
    Realizes .atom (.ok i :: .ok l :: .ok n :: rs) (.leaf k) rs.tail := by
  refine realizes_of_runs (g := .atom) (by rintro _ ⟨⟩; rfl) rfl fun gs j => ?_
  refine Affords.ahead rfl rfl htable (Affords.tok hi (Affords.tok hl (Affords.tok hn ?_)))
  exact Affords.node (Affords.skip hcomes (Affords.refl _ j))

/-- Parentheses cost nothing. -/
theorem realizes_paren {l r : Token} (hl : l.type = .tokenLparen)
    (h : Realizes (.expr 1) rs s (.ok r :: rs')) (hr : r.type = .tokenRparen) :
    Realizes .primary (.ok l :: rs) s rs' := by
  refine realizes_of_runs (g := .primary) (by rintro _ ⟨⟩; rfl) rfl fun gs k => ?_
  refine Affords.ahead rfl rfl (if_pos hl) (Affords.tok hl ?_)
  exact (h.runs .expr rfl).trans (Affords.tok hr (Affords.refl _ k))

/-- An operator pays for its node behind its operand. -/
theorem realizes_unop {u : Token} {k : Kind} (hu : isUnop u.type = true)
    (h : Realizes .primary rs s rs') : Realizes .primary (.ok u :: rs) (.tree k s) rs' := by
  refine realizes_of_runs (g := .primary) (by rintro _ ⟨⟩; rfl) rfl fun gs n => ?_
  have hne : u.type ≠ .tokenLparen := by
    intro h
    rw [h] at hu
    cases hu
  rw [Forest.size_tree, Nat.add_comm _ 1, ← Nat.add_assoc]
  refine Affords.ahead rfl rfl ((if_neg hne).trans (if_pos hu)) (Affords.tok rfl ?_)
  exact (h.runs .primary rfl).trans (Affords.node (Affords.refl _ n))

/-- The table takes for an atom what begins neither of the other choices. -/
theorem realizes_atom {t : TokenType} (ht : lookahead rs = some t) (hparen : t ≠ .tokenLparen)
    (hunop : isUnop t = false) (hbinop : isBinop t = false) (h : Realizes .atom rs s rs') :
    Realizes .primary rs s rs' := by
  refine realizes_of_runs (g := .primary) (by rintro _ ⟨⟩; rfl) rfl fun gs k => ?_
  refine Affords.lookahead rfl ht (m := [.atom]) (fun token htype => ?_) (h.runs .atom rfl)
  rw [Goal.table, htype, if_neg hparen, hunop, hbinop]
  rfl

/-- An operand, and then what goes on with it. -/
theorem realizes_expr {m : Nat} (hl : Realizes .primary rs l rs₁)
    (hs : Realizes (.climb m l) rs₁ s rs') : Realizes (.expr m) rs s rs' := by
  refine realizes_of_runs (g := .expr m) (by rintro _ ⟨⟩; rfl) rfl fun gs k => ?_
  obtain ⟨j, hj, hruns⟩ := hs .climb
  rw [hj, Nat.add_comm _ j, ← Nat.add_assoc]
  exact Affords.always rfl rfl ((hl.runs .primary rfl).trans (hruns gs k))

/-- An operator pays for its node behind its right operand. -/
theorem realizes_climbOp {m : Nat} {op : Token} {k : Kind} (ho : Continues m op.type)
    (hr : Realizes (.expr (nextMinAssoc op.type)) rs r rs₁)
    (hs : Realizes (.climb m (.tree k (l ++ r))) rs₁ s rs') :
    Realizes (.climb m l) (.ok op :: rs) s rs' := by
  rintro _ ⟨⟩
  obtain ⟨j, hj, hruns⟩ := hs .climb
  refine ⟨j + 1 + r.size, ?_, fun gs n => ?_⟩
  · rw [hj]
    simp only [Cat.before, Forest.size_tree, Forest.size_append]
    omega
  · rw [← Nat.add_assoc, ← Nat.add_assoc]
    refine Affords.ahead rfl rfl (if_pos ho) (Affords.tok rfl ?_)
    exact (hr.runs .expr rfl).trans (Affords.node (hruns gs n))

/-! #### Parameters and branches -/

/-- A parameter pays for its node. -/
theorem realizes_paramsLast {ty : Vartype} {i : Token} {t : TokenType} {k : Kind}
    (hi : i.type = .tokenIdentifier) (hty : DerivesType rs ty rs') (ht : lookahead rs' = some t)
    (hne : t ≠ .tokenComma) : Realizes .params (.ok i :: rs) (.leaf k) rs' := by
  refine realizes_of_runs (g := .params) (by rintro _ ⟨⟩; rfl) rfl fun gs n => ?_
  refine Affords.always rfl rfl (Affords.tok hi ((affords_type hty).trans (Affords.node ?_)))
  exact affords_nothing rfl ht fun _ htype => if_neg (by rw [htype]; exact hne)

/-- Each parameter pays for its node. -/
theorem realizes_paramsComma {ty : Vartype} {i c : Token} {k : Kind}
    (hi : i.type = .tokenIdentifier) (hty : DerivesType rs ty (.ok c :: rs₁))
    (hc : c.type = .tokenComma) (hps : Realizes .params rs₁ ps rs') :
    Realizes .params (.ok i :: rs) (.leaf k ++ ps) rs' := by
  refine realizes_of_runs (g := .params) (by rintro _ ⟨⟩; rfl) rfl fun gs n => ?_
  rw [add_size_append]
  refine Affords.always rfl rfl (Affords.tok hi ((affords_type hty).trans (Affords.node ?_)))
  exact Affords.ahead rfl rfl (if_pos hc) (Affords.tok hc (hps.runs .params rfl))

/-- A parameter ahead chooses the parameters. -/
theorem realizes_paramsSome {t : TokenType} (ht : lookahead rs = some t) (hne : t ≠ .tokenRparen)
    (hps : Realizes .params rs ps rs') : Realizes .paramsOpt rs ps rs' := by
  refine realizes_of_runs (g := .paramsOpt) (by rintro _ ⟨⟩; rfl) rfl fun gs k => ?_
  refine Affords.lookahead rfl ht (fun _ htype => if_neg (by rw [htype]; exact hne)) ?_
  exact hps.runs .params rfl

/-- A block of statements. -/
theorem Realizes.block {stop : List TokenType} {n : Nat} (h : Realizes (.body stop) rs b rs') :
    Affords (.node :: .body stop :: gs, rs) (n + (Forest.tree Kind.compound b).size)
      (gs, rs') n := by
  rw [Forest.size_tree, ← Nat.add_assoc]
  exact Affords.node (h.runs .body rfl)

/-- A branch pays for its condition, and for its body and the node of it. -/
theorem realizes_branch {t : Token} (hc : Realizes (.expr 0) rs cond (.ok t :: rs₁))
    (ht : t.type = .tokenThen) (hb : Realizes (.body ifBodyStop) rs₁ b rs') :
    Realizes .branch rs (cond ++ .tree .compound b) rs' := by
  refine realizes_of_runs (g := .branch) (by rintro _ ⟨⟩; rfl) rfl fun gs k => ?_
  rw [add_size_append]
  exact Affords.always rfl rfl ((hc.runs .expr rfl).trans (Affords.tok ht hb.block))

/-- Each branch pays for itself. -/
theorem realizes_elifsElif {i : Token} (hi : i.type = .tokenElif) (hb : Realizes .branch rs b rs₁)
    (hes : Realizes .elifs rs₁ es rs') : Realizes .elifs (.ok i :: rs) (b ++ es) rs' := by
  refine realizes_of_runs (g := .elifs) (by rintro _ ⟨⟩; rfl) rfl fun gs k => ?_
  rw [add_size_append]
  refine Affords.ahead rfl rfl (if_pos hi) (Affords.tok hi ?_)
  exact (hb.runs .branch rfl).trans (hes.runs .elifs rfl)

/-- The last branch pays for its body and the node of it. -/
theorem realizes_elseSome {i : Token} (hi : i.type = .tokenElse)
    (hb : Realizes (.body ifBodyStop) rs b rs') :
    Realizes .elseOpt (.ok i :: rs) (.tree .compound b) rs' := by
  refine realizes_of_runs (g := .elseOpt) (by rintro _ ⟨⟩; rfl) rfl fun gs k => ?_
  exact Affords.ahead rfl rfl (if_pos hi) (Affords.tok hi hb.block)

/-! #### Statements -/

/-- A statement, from the run of its goal. -/
theorem realizes_stmt {t : Token} {m : List Goal} (htable : stmtTable t = expand m)
    (h : ∀ (gs : List Goal) (k : Nat), Affords (m ++ gs, .ok t :: rs) (k + s.size) (gs, rs') k) :
    Realizes .stmt (.ok t :: rs) s rs' := by
  refine realizes_of_runs (g := .stmt) (by rintro _ ⟨⟩; rfl) rfl fun gs k => ?_
  exact Affords.ahead rfl rfl htable (h gs k)

/-- An expression below a node that comes behind it. -/
theorem Realizes.below {m n : Nat} {k : Kind} (h : Realizes (.expr m) rs e rs') :
    Affords (.expr m :: .node :: gs, rs) (n + (Forest.tree k e).size) (gs, rs') n := by
  rw [Forest.size_tree, Nat.add_comm _ 1, ← Nat.add_assoc]
  exact (h.runs .expr rfl).trans (Affords.node (Affords.refl _ n))

/-- A declaration pays for its node behind its expression. -/
theorem realizes_vardecl {ty : Vartype} {l i a : Token} {k : Kind} (hl : l.type = .tokenLet)
    (hi : i.type = .tokenIdentifier) (hty : DerivesTypeOpt rs ty (.ok a :: rs₁))
    (ha : a.type = .tokenAssign) (he : Realizes (.expr 0) rs₁ e rs') :
    Realizes .stmt (.ok l :: .ok i :: rs) (.tree k e) rs' := by
  refine realizes_stmt (stmtTable_let hl) fun gs n => Affords.tok hl (Affords.tok hi ?_)
  exact (affords_typeOpt hty).trans (Affords.tok ha he.below)

/-- A function pays for its node, its parameters, its body and the node of that. -/
theorem realizes_fundecl {ty : Vartype} {f i l r e : Token} {k : Kind}
    (hf : f.type = .tokenFunction)
    (hi : i.type = .tokenIdentifier) (hl : l.type = .tokenLparen)
    (hps : Realizes .paramsOpt rs ps (.ok r :: rs₁)) (hr : r.type = .tokenRparen)
    (hty : DerivesTypeOpt rs₁ ty rs₂) (hb : Realizes (.body endStop) rs₂ b (.ok e :: rs'))
    (he : e.type = .tokenEnd) :
    Realizes .stmt (.ok f :: .ok i :: .ok l :: rs) (.tree k (ps ++ .tree .compound b)) rs' := by
  refine realizes_stmt (stmtTable_function hf) fun gs n => ?_
  rw [Forest.size_tree, ← Nat.add_assoc, add_size_append]
  refine Affords.tok hf (Affords.tok hi (Affords.node (Affords.tok hl ?_)))
  refine (hps.runs .paramsOpt rfl).trans (Affords.tok hr ((affords_typeOpt hty).trans ?_))
  exact hb.block.trans (Affords.tok he (Affords.refl _ n))

/-- A return pays for its node behind its expression. -/
theorem realizes_returnStmt {t : Token} {k : Kind} (ht : t.type = .tokenReturn)
    (he : Realizes (.expr 0) rs e rs') : Realizes .stmt (.ok t :: rs) (.tree k e) rs' :=
  realizes_stmt (stmtTable_return ht) fun _ _ => Affords.tok ht he.below

/-- A conditional pays for its node and its branches. -/
theorem realizes_ifStmt {i e : Token} {k : Kind} (hi : i.type = .tokenIf)
    (hb : Realizes .branch rs b rs₁) (hes : Realizes .elifs rs₁ es rs₂)
    (hl : Realizes .elseOpt rs₂ l (.ok e :: rs')) (he : e.type = .tokenEnd) :
    Realizes .stmt (.ok i :: rs) (.tree k (b ++ (es ++ l))) rs' := by
  refine realizes_stmt (stmtTable_if hi) fun gs n => ?_
  rw [Forest.size_tree, ← Nat.add_assoc, add_size_append, add_size_append]
  refine Affords.tok hi (Affords.node ((hb.runs .branch rfl).trans ?_))
  refine (hes.runs .elifs rfl).trans ((hl.runs .elseOpt rfl).trans ?_)
  exact Affords.tok he (Affords.refl _ n)

/-- A loop pays for its condition, its node, its body and the node of that. -/
theorem realizes_whileStmt {w d e : Token} {k : Kind} (hw : w.type = .tokenWhile)
    (hc : Realizes (.expr 0) rs cond (.ok d :: rs₁)) (hd : d.type = .tokenDo)
    (hb : Realizes (.body endStop) rs₁ b (.ok e :: rs')) (he : e.type = .tokenEnd) :
    Realizes .stmt (.ok w :: rs) (.tree k (cond ++ .tree .compound b)) rs' := by
  refine realizes_stmt (stmtTable_while hw) fun gs n => ?_
  -- the node of the statement comes behind the condition
  rw [Forest.size_tree, ← Nat.add_assoc, add_size_append, Nat.add_right_comm]
  refine Affords.tok hw ((hc.runs .expr rfl).trans (Affords.node (Affords.tok hd ?_)))
  exact hb.block.trans (Affords.tok he (Affords.refl _ n))

/-- An assignment pays for its place, its expression and its node. -/
theorem realizes_assign {i a : Token} {k : Kind} (hi : i.type = .tokenIdentifier)
    (ho : Realizes (.chain (.leaf (.symref i.value.toIdentifier))) rs o (.ok a :: rs₁))
    (ha : a.type = .tokenAssign) (he : Realizes (.expr 0) rs₁ e rs') :
    Realizes .stmt (.ok i :: rs) (.tree k (o ++ e)) rs' := by
  refine realizes_stmt (stmtTable_identifier hi) fun gs n => Affords.tok hi ?_
  rw [Forest.size_tree, Nat.add_comm _ 1, ← Nat.add_assoc, add_size_append]
  refine (ho.chain rfl).trans (Affords.ahead rfl rfl (if_pos ha) (Affords.tok ha ?_))
  exact (he.runs .expr rfl).trans (Affords.node (Affords.refl _ n))

/-- A call as a statement pays like one in an expression. -/
theorem realizes_callStmt {i : Token} (hi : i.type = .tokenIdentifier)
    (ho : Realizes (.chain (.leaf (.symref i.value.toIdentifier))) rs o rs₁)
    (ht : lookahead rs₁ = some .tokenLparen) (hs : Realizes (.call o) rs₁ s rs') :
    Realizes .stmt (.ok i :: rs) s rs' := by
  refine realizes_stmt (stmtTable_identifier hi) fun gs k => Affords.tok hi ?_
  obtain ⟨j, hj, hruns⟩ := hs .call
  rw [hj, Nat.add_comm _ j, ← Nat.add_assoc]
  refine (ho.chain rfl).trans (Affords.lookahead rfl ht (m := [.call]) (fun token htype => ?_) ?_)
  · rw [Goal.table, htype]
    rfl
  · exact hruns gs k

/-- Each statement of a body pays for itself. -/
theorem realizes_bodyStmt {stop : List TokenType} {t : TokenType} (ht : lookahead rs = some t)
    (hmem : t ∉ stop) (hs : Realizes .stmt rs s rs₁) (hb : Realizes (.body stop) rs₁ b rs') :
    Realizes (.body stop) rs (s ++ b) rs' := by
  refine realizes_of_runs (g := .body stop) (by rintro _ ⟨⟩; rfl) rfl fun gs k => ?_
  rw [add_size_append]
  refine Affords.lookahead rfl ht (fun _ htype => if_neg (by rw [htype]; exact hmem)) ?_
  exact (hs.runs .stmt rfl).trans (hb.runs .body rfl)

end

/-- A derivation is a run of the table, which pays for the nodes of the syntax. -/
theorem realizes_of_derives {c : Cat} {rs rs' : List LexResult} {s : Syn} (h : Derives c rs s rs') :
    Realizes c rs s rs' := by
  induction h with
  | chainEnd ht hne =>
      exact realizes_nothing ht fun hc => by
        cases hc
        exact ⟨rfl, fun _ htype => if_neg (by rw [htype]; exact hne)⟩
  | chainDot hd hm hmember _ ih => exact realizes_chainDot hd hm hmember ih
  | callOptEnd ht hne =>
      exact realizes_nothing ht fun hc => by
        cases hc
        exact ⟨rfl, fun _ htype => if_neg (by rw [htype]; exact hne)⟩
  | callOptCall hcall ih => exact realizes_callOptCall ih hcall.lookahead_call
  | callNone hl hr => exact realizes_callNone hl hr
  | callSome hl ht hne _ _ hr ihe ihas => exact realizes_callSome hl ht hne ihe ihas hr
  | argsEnd ht hne =>
      exact realizes_nothing ht fun hc => by
        cases hc
        exact ⟨rfl, fun _ htype => if_neg (by rw [htype]; exact hne)⟩
  | argsComma hc _ _ ihe ihas => exact realizes_argsComma hc ihe ihas
  | symbol hi _ _ iho ihs => exact realizes_symbol hi iho ihs
  | constructor hi _ _ iho ihs => exact realizes_constructor hi iho ihs
  | literal hi => exact realizes_literal hi
  | insert hi hl hn hcomes =>
      exact realizes_insertOrSingleton hi hl hn hcomes (atomTable_insert hi)
  | singleton hi hl hn hcomes =>
      exact realizes_insertOrSingleton hi hl hn hcomes (atomTable_singleton hi)
  | paren hl _ hr ih => exact realizes_paren hl ih hr
  | unop hu _ ih => exact realizes_unop hu ih
  | atom hatom ih =>
      -- an atom begins with no parenthesis and no operator
      obtain ⟨t, ht, hparen, hunop, hbinop⟩ := hatom.lookahead_atom
      exact realizes_atom ht hparen hunop hbinop ih
  | expr _ _ ihl ihs => exact realizes_expr ihl ihs
  | climbEnd ht hne =>
      exact realizes_nothing ht fun hc => by
        cases hc
        exact ⟨rfl, fun _ htype => if_neg (by rw [htype]; exact hne)⟩
  | climbOp ho _ _ ihr ihs => exact realizes_climbOp ho ihr ihs
  | paramsLast hi hty ht hne => exact realizes_paramsLast hi hty ht hne
  | paramsComma hi hty hc _ ih => exact realizes_paramsComma hi hty hc ih
  | paramsNone ht =>
      exact realizes_nothing ht fun hc => by
        cases hc
        exact ⟨rfl, fun _ htype => if_pos htype⟩
  | paramsSome ht hne _ ih => exact realizes_paramsSome ht hne ih
  | branch _ ht _ ihc ihb => exact realizes_branch ihc ht ihb
  | elifsEnd ht hne =>
      exact realizes_nothing ht fun hc => by
        cases hc
        exact ⟨rfl, fun _ htype => if_neg (by rw [htype]; exact hne)⟩
  | elifsElif hi _ _ ihb ihes => exact realizes_elifsElif hi ihb ihes
  | elseNone ht hne =>
      exact realizes_nothing ht fun hc => by
        cases hc
        exact ⟨rfl, fun _ htype => if_neg (by rw [htype]; exact hne)⟩
  | elseSome hi _ ih => exact realizes_elseSome hi ih
  | vardecl hl hi hty ha _ ih => exact realizes_vardecl hl hi hty ha ih
  | fundecl hf hi hl _ hr hty _ he ihps ihb => exact realizes_fundecl hf hi hl ihps hr hty ihb he
  | returnStmt hr _ ih => exact realizes_returnStmt hr ih
  | ifStmt hi _ _ _ he ihb ihes ihl => exact realizes_ifStmt hi ihb ihes ihl he
  | whileStmt hw _ hd _ he ihc ihb => exact realizes_whileStmt hw ihc hd ihb he
  | assign hi _ ha _ iho ihe => exact realizes_assign hi iho ha ihe
  | callStmt hi _ hcall iho ihs => exact realizes_callStmt hi iho hcall.lookahead_call ihs
  | bodyEnd ht hmem =>
      exact realizes_nothing ht fun hc => by
        cases hc
        exact ⟨rfl, fun _ htype => if_pos (by rw [htype]; exact hmem)⟩
  | bodyStmt ht hmem _ _ ihs ihb => exact realizes_bodyStmt ht hmem ihs ihb

end Nucleus.Proofs
