import Nucleus.Proofs.ParserTable

/-!
# `Nucleus.Proofs.ParserLanguage`: the table is that of the grammar

The predictive machine of the table and the grammar accept the same modules
(`derivesModule_iff_runs`): a derivation is a run, and what an accepted run reads is derived, as
every choice of the table respects what the goals read (`holds_of_select`). So the language is
LL(1), with the closing parenthesis that `insert(name)` skips and all.
-/

set_option autoImplicit false

namespace Nucleus.Proofs

open Nucleus.Lib
open Nucleus.Lang
open Nucleus.Spec
open Nucleus.Lib.Predictive (advance)

/-- What a goal reads, in the terms of the grammar. -/
def GoalReads : Goal → List LexResult → List LexResult → Prop
  | .node, rs, rs' => rs' = rs
  | .tok a, rs, rs' => lookahead rs = some a ∧ rs' = rs.tail
  | .member d, rs, rs' => ∃ t, rs = .ok t :: rs' ∧ t.type = .tokenIdentifier ∧
      d.hasMember t.value.toIdentifier
  | .typeName, rs, rs' => ∃ t, rs = .ok t :: rs' ∧
      (t.type = .tokenPrimitive ∨ t.type = .tokenIdentifier)
  | .skip, rs, rs' => endless rs.head? = false ∧ rs' = rs.tail
  | .firstArg, rs, rs' => ∃ t, lookahead rs = some t ∧
      if t = .tokenRparen then rs = rs' else ∃ e, Derives (.expr 0) rs e rs'
  | .type, rs, rs' => ∃ ty, DerivesType rs ty rs'
  | .typeOpt, rs, rs' => ∃ ty, DerivesTypeOpt rs ty rs'
  | .paramsRest, rs, rs' => (∃ t, lookahead rs = some t ∧ t ≠ .tokenComma ∧ rs = rs') ∨
      ∃ c rs₁ ps, rs = .ok c :: rs₁ ∧ c.type = .tokenComma ∧ Derives .params rs₁ ps rs'
  | .identRest, rs, rs' =>
      (∃ a rs₁ e, rs = .ok a :: rs₁ ∧ a.type = .tokenAssign ∧ Derives (.expr 0) rs₁ e rs') ∨
        ∀ o, ∃ s, Derives (.call o) rs s rs'
  | g, rs, rs' => ∀ c, Codes c g → ∃ s, Derives c rs s rs'

section
variable {rs rs' : List LexResult}

/-- A token that was read stands there, unless it is the end. -/
theorem exists_of_tok {a : TokenType} (h : GoalReads (.tok a) rs rs') (ha : a ≠ .tokenEof) :
    ∃ t, rs = .ok t :: rs' ∧ t.type = a := by
  obtain ⟨ht, rfl⟩ := h
  rcases rs with _ | ⟨_ | t, rs⟩
  · exact absurd (Option.some.inj ht).symm ha
  · cases ht
  · exact ⟨t, rfl, Option.some.inj ht⟩

/-- A token ahead that is not the end is the first result. -/
theorem exists_of_ahead {t : Token} (h : ahead rs.head? = some t) (ht : t.type ≠ .tokenEof) :
    ∃ rest, rs = .ok t :: rest := by
  rcases rs with _ | ⟨_ | t', rest⟩
  · cases h
    exact absurd rfl ht
  · cases h
  · cases h
    exact ⟨rest, rfl⟩

/-- The choice is one for every token, or one for the token ahead. -/
theorem choice_of_select {g : Goal} {choice : Bool × List Goal} {first : Option LexResult}
    (h : parserTable.select g first = some choice) :
    g.always first = some choice ∨ ∃ t, ahead first = some t ∧ g.table t = some choice := by
  have hor : (g.always first).or ((ahead first).bind g.table) = some choice := by
    rw [← Option.orElse_eq_or (f := fun _ => (ahead first).bind g.table)]
    exact h
  rcases Option.or_eq_some_iff.mp hor with halways | ⟨-, htable⟩
  · exact Or.inl halways
  · exact Or.inr (Option.bind_eq_some_iff.mp htable)

/-- A goal that stands for a production reads what this derives. -/
theorem derives_of_reads {c : Cat} {g : Goal} {gs : List Goal} (hc : Codes c g)
    (h : Predictive.Reads GoalReads (g :: gs) rs rs') :
    ∃ s mid, Derives c rs s mid ∧ Predictive.Reads GoalReads gs mid rs' := by
  obtain ⟨mid, hg, hrest⟩ := h
  have hall : ∀ c, Codes c g → ∃ s, Derives c rs s mid := by
    cases hc <;> exact hg
  obtain ⟨s, hs⟩ := hall c hc
  exact ⟨s, mid, hs, hrest⟩

/-- A goal for a node reads nothing. -/
theorem node_of_reads {gs : List Goal} (h : Predictive.Reads GoalReads (.node :: gs) rs rs') :
    Predictive.Reads GoalReads gs rs rs' := by
  obtain ⟨_, rfl, hrest⟩ := h
  exact hrest

/-- Nor do the goals for the nodes of a member. -/
theorem eq_of_reads_nodes : ∀ {n : Nat} {rs : List LexResult},
    Predictive.Reads GoalReads (List.replicate n .node) rs rs' → rs = rs' := by
  intro n
  induction n with
  | zero => exact fun h => h
  | succ n ih => exact fun h => ih (node_of_reads h)

/-- A goal for a token reads this. -/
theorem tok_of_reads {a : TokenType} {gs : List Goal}
    (h : Predictive.Reads GoalReads (.tok a :: gs) rs rs') (ha : a ≠ .tokenEof) :
    ∃ t mid, rs = .ok t :: mid ∧ t.type = a ∧ Predictive.Reads GoalReads gs mid rs' := by
  obtain ⟨mid, htok, hrest⟩ := h
  obtain ⟨t, hrs, ht⟩ := exists_of_tok htok ha
  exact ⟨t, mid, hrs, ht, hrest⟩

/-- The goal `.chain` derives a chain: it has a member or it has ended. -/
theorem holds_chain {t : Token} {d : Designator} {taken : Bool} {ms : List Goal} {o : Syn}
    (ho : IsDesignated o d) (hahead : ahead rs.head? = some t)
    (htable : Goal.table (.chain d) t = some (taken, ms))
    (hreads : Predictive.Reads GoalReads ms (advance taken rs) rs') :
    ∃ s, Derives (.chain o) rs s rs' := by
  by_cases hdot : t.type = .tokenDot
  · cases (if_pos hdot).symm.trans htable
    obtain ⟨rest, rfl⟩ := exists_of_ahead hahead (by rw [hdot]; decide)
    obtain ⟨mid, ⟨m, hnext, hm, hhas⟩, hrest⟩ := hreads
    obtain rfl : rest = .ok m :: mid := hnext
    obtain ⟨o', hmember⟩ := exists_memberOf ho hhas
    obtain ⟨s, _, hs, rfl⟩ :=
      derives_of_reads (.chain (designated_memberOf ho hmember).2.1) hrest
    exact ⟨s, .chainDot hdot hm hmember hs⟩
  · cases (if_neg hdot).symm.trans htable
    obtain rfl : rs = rs' := hreads
    exact ⟨o, .chainEnd (lookahead_of_ahead hahead) hdot⟩

/-- A designator with what may follow it. -/
theorem chain_of_reads {k : Kind} {d : Designator} {gs : List Goal} (hk : k.designator = some d)
    (h : Predictive.Reads GoalReads (.chain d :: gs) rs rs') :
    ∃ o mid, Derives (.chain (.leaf k)) rs o mid ∧ Predictive.Reads GoalReads gs mid rs' :=
  derives_of_reads (.chain (isDesignated_leaf hk)) h

/-- The goal `.atom` derives an atom. -/
theorem holds_atom {t : Token} {taken : Bool} {ms : List Goal} (hahead : ahead rs.head? = some t)
    (htable : atomTable t = some (taken, ms))
    (hreads : Predictive.Reads GoalReads ms (advance taken rs) rs') :
    ∃ s, Derives .atom rs s rs' := by
  unfold atomTable at htable
  split at htable
  · cases htable
    obtain ⟨i, _, rfl, hi, hrest⟩ := tok_of_reads hreads (by decide)
    obtain ⟨o, _, ho, hrest⟩ :=
      chain_of_reads (k := .symref i.value.toIdentifier) rfl (node_of_reads hrest)
    obtain ⟨s, _, hs, rfl⟩ := derives_of_reads .callOpt hrest
    exact ⟨s, .symbol hi ho hs⟩
  · cases htable
    obtain ⟨i, _, rfl, hi, hrest⟩ := tok_of_reads hreads (by decide)
    -- the type of the built-in is told by the token that was ahead
    obtain rfl : i = t := Option.some.inj hahead
    obtain ⟨o, _, ho, hrest⟩ :=
      chain_of_reads (k := .builtin (.builtinConstructor i.value.toPrimitive)) rfl
        (node_of_reads hrest)
    obtain ⟨s, _, hs, rfl⟩ := derives_of_reads .callOpt hrest
    exact ⟨s, .constructor hi ho hs⟩
  · rename_i hliteral
    cases htable
    obtain ⟨rest, rfl⟩ := exists_of_ahead hahead (by rw [hliteral]; decide)
    obtain rfl : rest = rs' := node_of_reads hreads
    exact ⟨_, .literal hliteral⟩
  · cases htable
    obtain ⟨i, _, rfl, hi, hrest⟩ := tok_of_reads hreads (by decide)
    obtain ⟨l, _, rfl, hl, hrest⟩ := tok_of_reads hrest (by decide)
    obtain ⟨n, _, rfl, hn, hrest⟩ := tok_of_reads hrest (by decide)
    obtain ⟨_, ⟨hcomes, rfl⟩, rfl⟩ := node_of_reads hrest
    exact ⟨_, .insert hi hl hn hcomes⟩
  · cases htable
    obtain ⟨i, _, rfl, hi, hrest⟩ := tok_of_reads hreads (by decide)
    obtain ⟨l, _, rfl, hl, hrest⟩ := tok_of_reads hrest (by decide)
    obtain ⟨n, _, rfl, hn, hrest⟩ := tok_of_reads hrest (by decide)
    obtain ⟨_, ⟨hcomes, rfl⟩, rfl⟩ := node_of_reads hrest
    exact ⟨_, .singleton hi hl hn hcomes⟩
  · cases htable

/-- The goal `.primary` derives a primary expression. -/
theorem holds_primary {t : Token} {taken : Bool} {ms : List Goal} (hahead : ahead rs.head? = some t)
    (htable : Goal.table .primary t = some (taken, ms))
    (hreads : Predictive.Reads GoalReads ms (advance taken rs) rs') :
    ∃ s, Derives .primary rs s rs' := by
  simp only [Goal.table] at htable
  split at htable
  · cases htable
    obtain ⟨l, _, rfl, hl, hrest⟩ := tok_of_reads hreads (by decide)
    obtain ⟨s, _, hs, hrest⟩ := derives_of_reads .expr hrest
    obtain ⟨r, _, rfl, hr, rfl⟩ := tok_of_reads hrest (by decide)
    exact ⟨s, .paren hl hs hr⟩
  · split at htable
    · rename_i hu
      cases htable
      have hne : t.type ≠ .tokenEof := by
        intro heof
        rw [heof] at hu
        cases hu
      obtain ⟨u, _, rfl, -, hrest⟩ := tok_of_reads hreads hne
      -- the operator is the token that was ahead
      obtain rfl : u = t := Option.some.inj hahead
      obtain ⟨s, _, hs, hrest⟩ := derives_of_reads .primary hrest
      obtain rfl := node_of_reads hrest
      exact ⟨_, .unop hu hs⟩
    · split at htable
      · cases htable
      · cases htable
        obtain ⟨s, _, hs, rfl⟩ := derives_of_reads .atom hreads
        exact ⟨s, .atom hs⟩

/-! #### Statements -/

section
variable {t : Token} {taken : Bool} {ms : List Goal}

/-- The goals of `let` derive a declaration. -/
theorem holds_vardecl (hreads : Predictive.Reads GoalReads
      [.tok .tokenLet, .tok .tokenIdentifier, .typeOpt, .tok .tokenAssign, .expr 0, .node] rs rs') :
    ∃ s, Derives .stmt rs s rs' := by
  obtain ⟨l, _, rfl, hl, hrest⟩ := tok_of_reads hreads (by decide)
  obtain ⟨i, _, rfl, hi, _, ⟨ty, hty⟩, hrest⟩ := tok_of_reads hrest (by decide)
  obtain ⟨a, _, rfl, ha, hrest⟩ := tok_of_reads hrest (by decide)
  obtain ⟨e, _, he, hrest⟩ := derives_of_reads .expr hrest
  obtain rfl := node_of_reads hrest
  exact ⟨_, .vardecl hl hi hty ha he⟩

/-- The goals of `function` derive a function. -/
theorem holds_fundecl (hreads : Predictive.Reads GoalReads
      [.tok .tokenFunction, .tok .tokenIdentifier, .node, .tok .tokenLparen, .paramsOpt,
        .tok .tokenRparen, .typeOpt, .node, .body endStop, .tok .tokenEnd] rs rs') :
    ∃ s, Derives .stmt rs s rs' := by
  obtain ⟨f, _, rfl, hf, hrest⟩ := tok_of_reads hreads (by decide)
  obtain ⟨i, _, rfl, hi, hrest⟩ := tok_of_reads hrest (by decide)
  obtain ⟨l, _, rfl, hl, hrest⟩ := tok_of_reads (node_of_reads hrest) (by decide)
  obtain ⟨ps, _, hps, hrest⟩ := derives_of_reads .paramsOpt hrest
  obtain ⟨r, _, rfl, hr, _, ⟨ty, hty⟩, hrest⟩ := tok_of_reads hrest (by decide)
  obtain ⟨b, _, hb, hrest⟩ := derives_of_reads .body (node_of_reads hrest)
  obtain ⟨e, _, rfl, he, rfl⟩ := tok_of_reads hrest (by decide)
  exact ⟨_, .fundecl hf hi hl hps hr hty hb he⟩

/-- The goals of `return` derive a return. -/
theorem holds_returnStmt
    (hreads : Predictive.Reads GoalReads [.tok .tokenReturn, .expr 0, .node] rs rs') :
    ∃ s, Derives .stmt rs s rs' := by
  obtain ⟨r, _, rfl, hr, hrest⟩ := tok_of_reads hreads (by decide)
  obtain ⟨e, _, he, hrest⟩ := derives_of_reads .expr hrest
  obtain rfl := node_of_reads hrest
  exact ⟨_, .returnStmt hr he⟩

/-- The goals of `if` derive a conditional. -/
theorem holds_ifStmt (hreads : Predictive.Reads GoalReads
      [.tok .tokenIf, .node, .branch, .elifs, .elseOpt, .tok .tokenEnd] rs rs') :
    ∃ s, Derives .stmt rs s rs' := by
  obtain ⟨i, _, rfl, hi, hrest⟩ := tok_of_reads hreads (by decide)
  obtain ⟨b, _, hb, hrest⟩ := derives_of_reads .branch (node_of_reads hrest)
  obtain ⟨es, _, hes, hrest⟩ := derives_of_reads .elifs hrest
  obtain ⟨l, _, hl, hrest⟩ := derives_of_reads .elseOpt hrest
  obtain ⟨e, _, rfl, he, rfl⟩ := tok_of_reads hrest (by decide)
  exact ⟨_, .ifStmt hi hb hes hl he⟩

/-- The goals of `while` derive a loop. -/
theorem holds_whileStmt (hreads : Predictive.Reads GoalReads
      [.tok .tokenWhile, .expr 0, .node, .tok .tokenDo, .node, .body endStop, .tok .tokenEnd]
      rs rs') : ∃ s, Derives .stmt rs s rs' := by
  obtain ⟨w, _, rfl, hw, hrest⟩ := tok_of_reads hreads (by decide)
  obtain ⟨c, _, hc, hrest⟩ := derives_of_reads .expr hrest
  obtain ⟨d, _, rfl, hd, hrest⟩ := tok_of_reads (node_of_reads hrest) (by decide)
  obtain ⟨b, _, hb, hrest⟩ := derives_of_reads .body (node_of_reads hrest)
  obtain ⟨e, _, rfl, he, rfl⟩ := tok_of_reads hrest (by decide)
  exact ⟨_, .whileStmt hw hc hd hb he⟩

/-- The goals of a name derive an assignment or a call. -/
theorem holds_identStmt (hreads : Predictive.Reads GoalReads
      [.tok .tokenIdentifier, .node, .chain .place, .identRest] rs rs') :
    ∃ s, Derives .stmt rs s rs' := by
  obtain ⟨i, _, rfl, hi, hrest⟩ := tok_of_reads hreads (by decide)
  obtain ⟨o, _, ho, _, hlast, rfl⟩ :=
    chain_of_reads (k := .symref i.value.toIdentifier) rfl (node_of_reads hrest)
  rcases hlast with ⟨a, rs₁, e, rfl, ha, he⟩ | hcall
  · exact ⟨_, .assign hi ho ha he⟩
  · obtain ⟨s, hs⟩ := hcall o
    exact ⟨s, .callStmt hi ho hs⟩

/-- The goal `.stmt` derives a statement. -/
theorem holds_stmt (htable : stmtTable t = some (taken, ms))
    (hreads : Predictive.Reads GoalReads ms (advance taken rs) rs') :
    ∃ s, Derives .stmt rs s rs' := by
  unfold stmtTable at htable
  split at htable
  · cases htable
    exact holds_vardecl hreads
  · cases htable
    exact holds_fundecl hreads
  · cases htable
    exact holds_returnStmt hreads
  · cases htable
    exact holds_ifStmt hreads
  · cases htable
    exact holds_whileStmt hreads
  · cases htable
    exact holds_identStmt hreads
  · cases htable

end

/-! #### The choices that look at no token -/

/-- The goals of a call derive a call. -/
theorem holds_call {o : Syn} (hreads : Predictive.Reads GoalReads
      [.node, .tok .tokenLparen, .firstArg, .args, .tok .tokenRparen] rs rs') :
    ∃ s, Derives (.call o) rs s rs' := by
  obtain ⟨l, _, rfl, hl, mid, ⟨t, ht, hfirst⟩, hrest⟩ :=
    tok_of_reads (node_of_reads hreads) (by decide)
  obtain ⟨as, _, has, hrest⟩ := derives_of_reads .args hrest
  obtain ⟨r, _, rfl, hr, rfl⟩ := tok_of_reads hrest (by decide)
  -- without a first argument there are no others
  by_cases hclose : t = .tokenRparen
  · rw [if_pos hclose] at hfirst
    subst hfirst hclose
    obtain ⟨rfl, rfl⟩ := derives_args_of_rparen has ht
    exact ⟨_, .callNone hl hr⟩
  · rw [if_neg hclose] at hfirst
    obtain ⟨e, he⟩ := hfirst
    exact ⟨_, .callSome hl ht hclose he has hr⟩

/-- The goals of a type derive a type. -/
theorem holds_type (hreads : Predictive.Reads GoalReads [.tok .tokenColon, .typeName] rs rs') :
    ∃ ty, DerivesType rs ty rs' := by
  obtain ⟨c, _, rfl, hc, _, ⟨t, rfl, ht⟩, rfl⟩ := tok_of_reads hreads (by decide)
  rcases ht with ht | ht
  · exact ⟨_, .primitive hc ht⟩
  · exact ⟨_, .archetype hc ht⟩

/-- The goals of a parameter derive parameters. -/
theorem holds_params (hreads : Predictive.Reads GoalReads
      [.tok .tokenIdentifier, .type, .node, .paramsRest] rs rs') :
    ∃ s, Derives .params rs s rs' := by
  obtain ⟨i, _, rfl, hi, _, ⟨ty, hty⟩, hrest⟩ := tok_of_reads hreads (by decide)
  obtain ⟨_, hlast, rfl⟩ := node_of_reads hrest
  rcases hlast with ⟨t, ht, hne, rfl⟩ | ⟨c, rs₁, ps, rfl, hc, hps⟩
  · exact ⟨_, .paramsLast hi hty ht hne⟩
  · exact ⟨_, .paramsComma hi hty hc hps⟩

/-- The goals of a branch derive a branch. -/
theorem holds_branch (hreads : Predictive.Reads GoalReads
      [.expr 0, .tok .tokenThen, .node, .body ifBodyStop] rs rs') :
    ∃ s, Derives .branch rs s rs' := by
  obtain ⟨c, _, hc, hrest⟩ := derives_of_reads .expr hreads
  obtain ⟨t, _, rfl, ht, hrest⟩ := tok_of_reads hrest (by decide)
  obtain ⟨b, _, hb, rfl⟩ := derives_of_reads .body (node_of_reads hrest)
  exact ⟨_, .branch hc ht hb⟩

/-- What a choice that looks at no token leaves to be read is what the goal reads. -/
theorem holds_of_always {g : Goal} {taken : Bool} {ms : List Goal}
    (h : g.always rs.head? = some (taken, ms))
    (hreads : Predictive.Reads GoalReads ms (advance taken rs) rs') : GoalReads g rs rs' := by
  cases g with
  | node =>
      cases h
      exact hreads.symm
  | skip =>
      rw [Goal.always] at h
      split at h
      · cases h
      · rename_i hcomes
        cases h
        -- a result is skipped only where an error comes
        exact ⟨Bool.eq_false_iff.mpr hcomes, hreads.symm⟩
  | call =>
      rintro _ ⟨⟩
      cases h
      exact holds_call hreads
  | expr m =>
      rintro _ ⟨⟩
      cases h
      obtain ⟨l, _, hl, hrest⟩ := derives_of_reads .primary hreads
      obtain ⟨s, _, hs, rfl⟩ := derives_of_reads (.climb (l := l)) hrest
      exact ⟨s, .expr hl hs⟩
  | type =>
      cases h
      exact holds_type hreads
  | params =>
      rintro _ ⟨⟩
      cases h
      exact holds_params hreads
  | branch =>
      rintro _ ⟨⟩
      cases h
      exact holds_branch hreads
  | _ => cases h

/-! #### The choices for the token ahead -/

section
variable {t : Token} {taken : Bool} {ms : List Goal}

/-- A choice between a goal list and nothing. -/
theorem cases_of_expand {p : Prop} [Decidable p] {m : List Goal}
    (htable : (if p then expand m else expand []) = some (taken, ms))
    (hreads : Predictive.Reads GoalReads ms (advance taken rs) rs') :
    p ∧ Predictive.Reads GoalReads m rs rs' ∨ ¬ p ∧ rs = rs' := by
  by_cases hp : p
  · cases (if_pos hp).symm.trans htable
    exact Or.inl ⟨hp, hreads⟩
  · cases (if_neg hp).symm.trans htable
    exact Or.inr ⟨hp, hreads⟩

/-- The other way round. -/
theorem cases_of_nothing {p : Prop} [Decidable p] {m : List Goal}
    (htable : (if p then expand [] else expand m) = some (taken, ms))
    (hreads : Predictive.Reads GoalReads ms (advance taken rs) rs') :
    p ∧ rs = rs' ∨ ¬ p ∧ Predictive.Reads GoalReads m rs rs' := by
  by_cases hp : p
  · cases (if_pos hp).symm.trans htable
    exact Or.inl ⟨hp, hreads⟩
  · cases (if_neg hp).symm.trans htable
    exact Or.inr ⟨hp, hreads⟩

/-- The goal `.tok` reads its token. -/
theorem holds_tok {a : TokenType} (hahead : ahead rs.head? = some t)
    (htable : Goal.table (.tok a) t = some (taken, ms))
    (hreads : Predictive.Reads GoalReads ms (advance taken rs) rs') :
    GoalReads (.tok a) rs rs' := by
  by_cases ht : t.type = a
  · cases (if_pos ht).symm.trans htable
    obtain rfl : rs.tail = rs' := hreads
    exact ⟨ht ▸ lookahead_of_ahead hahead, rfl⟩
  · cases (if_neg ht).symm.trans htable

/-- The goal `.member` reads the name of a member. -/
theorem holds_member {d : Designator} (hahead : ahead rs.head? = some t)
    (htable : Goal.table (.member d) t = some (taken, ms))
    (hreads : Predictive.Reads GoalReads ms (advance taken rs) rs') :
    GoalReads (.member d) rs rs' := by
  by_cases ht : t.type = .tokenIdentifier ∧ d.hasMember t.value.toIdentifier
  · cases (if_pos ht).symm.trans htable
    obtain ⟨rest, rfl⟩ := exists_of_ahead hahead (by rw [ht.1]; decide)
    obtain rfl : rest = rs' := eq_of_reads_nodes hreads
    exact ⟨t, rfl, ht⟩
  · cases (if_neg ht).symm.trans htable

/-- The goal `.typeName` reads a primitive or a name. -/
theorem holds_typeName (hahead : ahead rs.head? = some t)
    (htable : Goal.table .typeName t = some (taken, ms))
    (hreads : Predictive.Reads GoalReads ms (advance taken rs) rs') :
    GoalReads .typeName rs rs' := by
  by_cases ht : t.type = .tokenPrimitive ∨ t.type = .tokenIdentifier
  · cases (if_pos ht).symm.trans htable
    have hne : t.type ≠ .tokenEof := by
      rcases ht with ht | ht
      · rw [ht]
        decide
      · rw [ht]
        decide
    obtain ⟨rest, rfl⟩ := exists_of_ahead hahead hne
    obtain rfl : rest = rs' := hreads
    exact ⟨t, rfl, ht⟩
  · cases (if_neg ht).symm.trans htable

/-- The goal `.callOpt` derives a call or none. -/
theorem holds_callOpt {o : Syn} (hahead : ahead rs.head? = some t)
    (htable : Goal.table .callOpt t = some (taken, ms))
    (hreads : Predictive.Reads GoalReads ms (advance taken rs) rs') :
    ∃ s, Derives (.callOpt o) rs s rs' := by
  rcases cases_of_expand htable hreads with ⟨-, hcall⟩ | ⟨ht, rfl⟩
  · obtain ⟨s, _, hs, rfl⟩ := derives_of_reads (.call (o := o)) hcall
    exact ⟨s, .callOptCall hs⟩
  · exact ⟨_, .callOptEnd (lookahead_of_ahead hahead) ht⟩

/-- The goal `.firstArg` derives an expression or none. -/
theorem holds_firstArg (hahead : ahead rs.head? = some t)
    (htable : Goal.table .firstArg t = some (taken, ms))
    (hreads : Predictive.Reads GoalReads ms (advance taken rs) rs') :
    GoalReads .firstArg rs rs' := by
  refine ⟨t.type, lookahead_of_ahead hahead, ?_⟩
  rcases cases_of_nothing htable hreads with ⟨ht, hsame⟩ | ⟨ht, hexpr⟩
  · rw [if_pos ht]
    exact hsame
  · rw [if_neg ht]
    obtain ⟨e, _, he, rfl⟩ := derives_of_reads .expr hexpr
    exact ⟨e, he⟩

/-- The goal `.args` derives the further arguments. -/
theorem holds_args (hahead : ahead rs.head? = some t)
    (htable : Goal.table .args t = some (taken, ms))
    (hreads : Predictive.Reads GoalReads ms (advance taken rs) rs') :
    ∃ s, Derives .args rs s rs' := by
  rcases cases_of_expand htable hreads with ⟨-, hnext⟩ | ⟨ht, rfl⟩
  · obtain ⟨c, _, rfl, hc, hrest⟩ := tok_of_reads hnext (by decide)
    obtain ⟨e, _, he, hrest⟩ := derives_of_reads .expr hrest
    obtain ⟨as, _, has, rfl⟩ := derives_of_reads .args hrest
    exact ⟨_, .argsComma hc he has⟩
  · exact ⟨_, .argsEnd (lookahead_of_ahead hahead) ht⟩

/-- The goal `.climb` derives what goes on with an operand. -/
theorem holds_climb {m : Nat} {l : Syn} (hahead : ahead rs.head? = some t)
    (htable : Goal.table (.climb m) t = some (taken, ms))
    (hreads : Predictive.Reads GoalReads ms (advance taken rs) rs') :
    ∃ s, Derives (.climb m l) rs s rs' := by
  rcases cases_of_expand htable hreads with ⟨ht, hnext⟩ | ⟨ht, rfl⟩
  · have hne : t.type ≠ .tokenEof := by
      intro heof
      rw [heof] at ht
      exact absurd ht.1 (by decide)
    obtain ⟨rest, rfl⟩ := exists_of_ahead hahead hne
    obtain ⟨_, ⟨-, rfl⟩, hrest⟩ := hnext
    obtain ⟨r, _, hr, hrest⟩ := derives_of_reads .expr hrest
    obtain ⟨s, _, hs, rfl⟩ := derives_of_reads .climb (node_of_reads hrest)
    exact ⟨s, .climbOp ht hr hs⟩
  · exact ⟨_, .climbEnd (lookahead_of_ahead hahead) ht⟩

/-- The goal `.typeOpt` derives a type or none. -/
theorem holds_typeOpt (hahead : ahead rs.head? = some t)
    (htable : Goal.table .typeOpt t = some (taken, ms))
    (hreads : Predictive.Reads GoalReads ms (advance taken rs) rs') :
    ∃ ty, DerivesTypeOpt rs ty rs' := by
  rcases cases_of_expand htable hreads with ⟨-, _, ⟨ty, hty⟩, rfl⟩ | ⟨ht, rfl⟩
  · exact ⟨ty, .present hty⟩
  · exact ⟨_, .absent (lookahead_of_ahead hahead) ht⟩

/-- The goal `.paramsRest` reads further parameters or none. -/
theorem holds_paramsRest (hahead : ahead rs.head? = some t)
    (htable : Goal.table .paramsRest t = some (taken, ms))
    (hreads : Predictive.Reads GoalReads ms (advance taken rs) rs') :
    GoalReads .paramsRest rs rs' := by
  rcases cases_of_expand htable hreads with ⟨-, hnext⟩ | ⟨ht, hsame⟩
  · obtain ⟨c, _, rfl, hc, hrest⟩ := tok_of_reads hnext (by decide)
    obtain ⟨ps, _, hps, rfl⟩ := derives_of_reads .params hrest
    exact Or.inr ⟨c, _, ps, rfl, hc, hps⟩
  · exact Or.inl ⟨_, lookahead_of_ahead hahead, ht, hsame⟩

/-- The goal `.paramsOpt` derives parameters or none. -/
theorem holds_paramsOpt (hahead : ahead rs.head? = some t)
    (htable : Goal.table .paramsOpt t = some (taken, ms))
    (hreads : Predictive.Reads GoalReads ms (advance taken rs) rs') :
    ∃ s, Derives .paramsOpt rs s rs' := by
  rcases cases_of_nothing htable hreads with ⟨ht, rfl⟩ | ⟨ht, hparams⟩
  · exact ⟨_, .paramsNone (ht ▸ lookahead_of_ahead hahead)⟩
  · obtain ⟨ps, _, hps, rfl⟩ := derives_of_reads .params hparams
    exact ⟨_, .paramsSome (lookahead_of_ahead hahead) ht hps⟩

/-- The goal `.elifs` derives the further branches. -/
theorem holds_elifs (hahead : ahead rs.head? = some t)
    (htable : Goal.table .elifs t = some (taken, ms))
    (hreads : Predictive.Reads GoalReads ms (advance taken rs) rs') :
    ∃ s, Derives .elifs rs s rs' := by
  rcases cases_of_expand htable hreads with ⟨-, hnext⟩ | ⟨ht, rfl⟩
  · obtain ⟨i, _, rfl, hi, hrest⟩ := tok_of_reads hnext (by decide)
    obtain ⟨b, _, hb, hrest⟩ := derives_of_reads .branch hrest
    obtain ⟨es, _, hes, rfl⟩ := derives_of_reads .elifs hrest
    exact ⟨_, .elifsElif hi hb hes⟩
  · exact ⟨_, .elifsEnd (lookahead_of_ahead hahead) ht⟩

/-- The goal `.elseOpt` derives the last branch or none. -/
theorem holds_elseOpt (hahead : ahead rs.head? = some t)
    (htable : Goal.table .elseOpt t = some (taken, ms))
    (hreads : Predictive.Reads GoalReads ms (advance taken rs) rs') :
    ∃ s, Derives .elseOpt rs s rs' := by
  rcases cases_of_expand htable hreads with ⟨-, hnext⟩ | ⟨ht, rfl⟩
  · obtain ⟨i, _, rfl, hi, hrest⟩ := tok_of_reads hnext (by decide)
    obtain ⟨b, _, hb, rfl⟩ := derives_of_reads .body (node_of_reads hrest)
    exact ⟨_, .elseSome hi hb⟩
  · exact ⟨_, .elseNone (lookahead_of_ahead hahead) ht⟩

/-- The goal `.identRest` reads what makes a chain a statement. -/
theorem holds_identRest (htable : Goal.table .identRest t = some (taken, ms))
    (hreads : Predictive.Reads GoalReads ms (advance taken rs) rs') :
    GoalReads .identRest rs rs' := by
  by_cases hassign : t.type = .tokenAssign
  · cases (if_pos hassign).symm.trans htable
    obtain ⟨a, _, rfl, ha, hrest⟩ := tok_of_reads hreads (by decide)
    obtain ⟨e, _, he, hrest⟩ := derives_of_reads .expr hrest
    obtain rfl := node_of_reads hrest
    exact Or.inl ⟨a, _, e, rfl, ha, he⟩
  · by_cases hparen : t.type = .tokenLparen
    · cases ((if_neg hassign).trans (if_pos hparen)).symm.trans htable
      obtain ⟨_, hcall, rfl⟩ := hreads
      exact Or.inr fun o => hcall _ .call
    · cases ((if_neg hassign).trans (if_neg hparen)).symm.trans htable

/-- The goal `.body` derives a body. -/
theorem holds_body {stop : List TokenType} (hahead : ahead rs.head? = some t)
    (htable : Goal.table (.body stop) t = some (taken, ms))
    (hreads : Predictive.Reads GoalReads ms (advance taken rs) rs') :
    ∃ s, Derives (.body stop) rs s rs' := by
  rcases cases_of_nothing htable hreads with ⟨ht, rfl⟩ | ⟨ht, hnext⟩
  · exact ⟨_, .bodyEnd (lookahead_of_ahead hahead) ht⟩
  · obtain ⟨s, _, hs, hrest⟩ := derives_of_reads .stmt hnext
    obtain ⟨b, _, hb, rfl⟩ := derives_of_reads .body hrest
    exact ⟨_, .bodyStmt (lookahead_of_ahead hahead) ht hs hb⟩

/-- So is what a choice for the token ahead leaves to be read. -/
theorem holds_of_table {g : Goal} (hahead : ahead rs.head? = some t)
    (htable : g.table t = some (taken, ms))
    (hreads : Predictive.Reads GoalReads ms (advance taken rs) rs') : GoalReads g rs rs' := by
  cases g with
  | tok a => exact holds_tok hahead htable hreads
  | member d => exact holds_member hahead htable hreads
  | typeName => exact holds_typeName hahead htable hreads
  | chain d =>
      rintro _ ⟨⟩
      rename_i o ho
      exact holds_chain ho hahead htable hreads
  | firstArg => exact holds_firstArg hahead htable hreads
  | typeOpt => exact holds_typeOpt hahead htable hreads
  | paramsRest => exact holds_paramsRest hahead htable hreads
  | identRest => exact holds_identRest htable hreads
  -- the other goals stand for one production each
  | callOpt => rintro _ ⟨⟩; exact holds_callOpt hahead htable hreads
  | args => rintro _ ⟨⟩; exact holds_args hahead htable hreads
  | atom => rintro _ ⟨⟩; exact holds_atom hahead htable hreads
  | primary => rintro _ ⟨⟩; exact holds_primary hahead htable hreads
  | climb m => rintro _ ⟨⟩; exact holds_climb hahead htable hreads
  | paramsOpt => rintro _ ⟨⟩; exact holds_paramsOpt hahead htable hreads
  | elifs => rintro _ ⟨⟩; exact holds_elifs hahead htable hreads
  | elseOpt => rintro _ ⟨⟩; exact holds_elseOpt hahead htable hreads
  | stmt => rintro _ ⟨⟩; exact holds_stmt htable hreads
  | body stop => rintro _ ⟨⟩; exact holds_body hahead htable hreads
  | _ => cases htable

end

/-- What a choice of the parser reads is what the goal reads. -/
theorem holds_of_select (g : Goal) (rs : List LexResult) (taken : Bool) (ms : List Goal)
    (rs' : List LexResult) (h : parserTable.select g rs.head? = some (taken, ms))
    (hreads : Predictive.Reads GoalReads ms (advance taken rs) rs') : GoalReads g rs rs' := by
  rcases choice_of_select h with halways | ⟨t, hahead, htable⟩
  · exact holds_of_always halways hreads
  · exact holds_of_table hahead htable hreads

end

/-- A statement begins with no header token. -/
theorem not_header_of_stmt {s : Syn} {rs rs' : List LexResult} (h : Derives .stmt rs s rs') :
    ∃ t, lookahead rs = some t ∧ t ∉ headerTokens := by
  cases h with
  | vardecl hl _ _ _ _ => exact ⟨_, congrArg some hl, by decide⟩
  | fundecl hf _ _ _ _ _ _ _ => exact ⟨_, congrArg some hf, by decide⟩
  | returnStmt hr _ => exact ⟨_, congrArg some hr, by decide⟩
  | ifStmt hi _ _ _ _ => exact ⟨_, congrArg some hi, by decide⟩
  | whileStmt hw _ _ _ _ => exact ⟨_, congrArg some hw, by decide⟩
  | assign hi _ _ _ => exact ⟨_, congrArg some hi, by decide⟩
  | callStmt hi _ _ => exact ⟨_, congrArg some hi, by decide⟩

/-- The table accepts the modules of the language. -/
theorem derivesModule_iff_runs {rs : List LexResult} :
    (∃ s, DerivesModule rs s) ↔ parserTable.Runs ([.body moduleStop], rs) ([], []) := by
  constructor
  · rintro ⟨s, hs⟩
    -- as many nodes as the syntax has are enough
    have hrealizes : Realizes (.body moduleStop) rs s [] := realizes_of_derives hs.body
    obtain ⟨_, hrun⟩ : ∃ remark, parserTable.PaidRuns parserTariff
        (([.body moduleStop], rs), ⟨0 + s.size, none⟩) (([], []), ⟨0, remark⟩) :=
      hrealizes.runs .body rfl none
    exact hrun.runs
  · intro hruns
    have hreads : Predictive.Reads GoalReads [.body moduleStop] rs [] :=
      Predictive.reads_of_runs holds_of_select hruns
    obtain ⟨s, _, hs, rfl⟩ := derives_of_reads .body hreads
    -- the header is empty, as no statement begins with one of its tokens
    refine ⟨s, fun t ht hheader => ?_, hs⟩
    cases hs with
    | bodyEnd ht' hmem =>
        obtain rfl := List.mem_singleton.mp hmem
        cases ht.symm.trans ht'
        exact absurd hheader (by decide)
    | bodyStmt _ _ hstmt _ =>
        obtain ⟨t', ht', hnot⟩ := not_header_of_stmt hstmt
        cases ht.symm.trans ht'
        exact hnot hheader

end Nucleus.Proofs
