import Nucleus.Proofs.ParserLanguage

/-!
# `Nucleus.Proofs.Completions`: what was read can be completed

Every goal has a sample, which the table reads in front of what may follow it (`sample_runs`). The
choices of the table keep the samples on the stack together (`sampleWords_keeps`), so that what a
run has taken is the beginning of a module. The one exception is the dot behind a primitive that has
no builtin functions.
-/

set_option autoImplicit false

namespace Nucleus.Proofs

open Nucleus.Lib
open Nucleus.Lang
open Nucleus.Spec
open Nucleus.Lib.Predictive (Runs)

/-! ### Steps -/

section
variable {g : Goal} {gs m : List Goal} {rs : List LexResult} {c : Config}

/-- A goal that does not look at the token is replaced. -/
theorem runs_always (halways : g.always rs.head? = expand m)
    (h : parserTable.Runs (m ++ gs, rs) c) : parserTable.Runs (g :: gs, rs) c :=
  Runs.choose (select_always halways) h

/-- A goal is replaced by what the table says for the next token. -/
theorem runs_ahead {token : Token} (hnone : g.always rs.head? = none)
    (hahead : ahead rs.head? = some token) (htable : g.table token = expand m)
    (h : parserTable.Runs (m ++ gs, rs) c) : parserTable.Runs (g :: gs, rs) c :=
  Runs.choose ((select_ahead hnone hahead).trans htable) h

/-- A token that the table takes. -/
theorem runs_taking {token : Token} (hnone : g.always (some (.ok token)) = none)
    (htable : g.table token = some (true, m)) (h : parserTable.Runs (m ++ gs, rs) c) :
    parserTable.Runs (g :: gs, .ok token :: rs) c :=
  Runs.choose ((@select_ahead g (.ok token :: rs) token hnone rfl).trans htable) h

/-- A token that is read. -/
theorem runs_tok {t : TokenType} {token : Token} (ht : token.type = t)
    (h : parserTable.Runs (gs, rs) c) : parserTable.Runs (.tok t :: gs, .ok token :: rs) c :=
  runs_taking rfl (if_pos ht) h

/-- A node reads nothing. -/
theorem runs_nodeGoal (h : parserTable.Runs (gs, rs) c) : parserTable.Runs (.node :: gs, rs) c :=
  runs_always rfl h

end

/-! ### Samples -/

/-- A closing token goes on with no expression, type or list. -/
theorem isClosing_iff {t : TokenType} : isClosing t = true ↔
    t ≠ .tokenDot ∧ t ≠ .tokenLparen ∧ t ≠ .tokenComma ∧ t ≠ .tokenColon ∧ isBinop t = false := by
  simp [isClosing, and_assoc]

/-- No operator follows in front of a token that closes. -/
theorem runs_climb_closing {m : Nat} {rest : List LexResult} {t : Token} {gs : List Goal}
    (hahead : ahead rest.head? = some t) (hclosing : isClosing t.type = true) :
    parserTable.Runs (.climb m :: gs, rest) (gs, rest) := by
  refine runs_ahead rfl hahead (if_neg fun h => ?_) (Runs.refl _)
  rw [(isClosing_iff.mp hclosing).2.2.2.2] at h
  exact absurd h.1 (by decide)

/-- A literal is an expression in front of a token that closes. -/
theorem runs_expr_closing {m : Nat} {rest : List LexResult} {t : Token} {gs : List Goal}
    (hahead : ahead rest.head? = some t) (hclosing : isClosing t.type = true) :
    parserTable.Runs (.expr m :: gs, .ok (sampleToken .tokenLiteral) :: rest) (gs, rest) := by
  refine runs_always rfl (runs_ahead rfl rfl (m := [.atom]) rfl ?_)
  exact runs_taking rfl rfl (runs_nodeGoal (runs_climb_closing hahead hclosing))

/-- The sample of a goal is read, in front of what may follow it. -/
theorem sample_runs (g : Goal) {rest : List LexResult} {t : Token}
    (hahead : ahead rest.head? = some t) (hfollows : g.follows t.type = true) (gs : List Goal) :
    parserTable.Runs (g :: gs, g.sample.map .ok ++ rest) (gs, rest) := by
  cases g with
  | node => exact runs_nodeGoal (Runs.refl _)
  | tok a => exact runs_tok rfl (Runs.refl _)
  | member d =>
      rcases (of_decide_eq_true hfollows : d.HasMembers) with rfl | rfl
      · exact runs_taking rfl rfl (runs_nodeGoal (Runs.refl _))
      · exact runs_taking rfl (m := []) (by decide) (Runs.refl _)
  | typeName => exact runs_taking rfl rfl (Runs.refl _)
  | skip => exact Runs.choose rfl (Runs.refl _)
  | chain d =>
      have hdot : t.type ≠ .tokenDot := of_decide_eq_true hfollows
      exact runs_ahead rfl hahead (if_neg hdot) (Runs.refl _)
  | callOpt =>
      exact runs_ahead rfl hahead (if_neg (isClosing_iff.mp hfollows).2.1) (Runs.refl _)
  -- a sample of a call has no arguments
  | call =>
      refine runs_always rfl (runs_nodeGoal (runs_tok rfl ?_))
      refine runs_ahead rfl rfl (m := []) rfl (runs_ahead rfl rfl (m := []) rfl ?_)
      exact runs_tok rfl (Runs.refl _)
  | firstArg => exact runs_ahead rfl hahead (if_pos (of_decide_eq_true hfollows)) (Runs.refl _)
  | args =>
      have ht : t.type = .tokenRparen := of_decide_eq_true hfollows
      exact runs_ahead rfl hahead (if_neg (by rw [ht]; decide)) (Runs.refl _)
  | atom => exact runs_taking rfl rfl (runs_nodeGoal (Runs.refl _))
  | primary =>
      refine runs_ahead rfl rfl (m := [.atom]) rfl ?_
      exact runs_taking rfl rfl (runs_nodeGoal (Runs.refl _))
  | expr m => exact runs_expr_closing hahead hfollows
  | climb m => exact runs_climb_closing hahead hfollows
  | type =>
      exact runs_always rfl (runs_tok rfl (runs_taking rfl rfl (Runs.refl _)))
  | typeOpt =>
      exact runs_ahead rfl hahead (if_neg (isClosing_iff.mp hfollows).2.2.2.1) (Runs.refl _)
  | params =>
      refine runs_always rfl (runs_tok rfl (runs_always rfl (runs_tok rfl ?_)))
      refine runs_taking rfl rfl (runs_nodeGoal ?_)
      exact runs_ahead rfl hahead (if_neg (isClosing_iff.mp hfollows).2.2.1) (Runs.refl _)
  | paramsRest =>
      exact runs_ahead rfl hahead (if_neg (isClosing_iff.mp hfollows).2.2.1) (Runs.refl _)
  | paramsOpt => exact runs_ahead rfl hahead (if_pos (of_decide_eq_true hfollows)) (Runs.refl _)
  | branch =>
      have ht : t.type = .tokenEnd := of_decide_eq_true hfollows
      refine runs_always rfl ?_
      refine (runs_expr_closing (t := sampleToken .tokenThen) rfl (by decide)).trans
        (runs_tok rfl ?_)
      exact runs_nodeGoal (runs_ahead rfl hahead (if_pos (by rw [ht]; decide)) (Runs.refl _))
  | elifs =>
      have ht : t.type = .tokenEnd := of_decide_eq_true hfollows
      exact runs_ahead rfl hahead (if_neg (by rw [ht]; decide)) (Runs.refl _)
  | elseOpt =>
      have ht : t.type = .tokenEnd := of_decide_eq_true hfollows
      exact runs_ahead rfl hahead (if_neg (by rw [ht]; decide)) (Runs.refl _)
  | stmt =>
      refine runs_ahead rfl rfl (m := [.tok .tokenReturn, .expr 0, .node]) rfl (runs_tok rfl ?_)
      exact (runs_expr_closing hahead hfollows).trans (runs_nodeGoal (Runs.refl _))
  | identRest =>
      refine runs_ahead rfl rfl (m := [.call]) rfl
        (runs_always rfl (runs_nodeGoal (runs_tok rfl ?_)))
      refine runs_ahead rfl rfl (m := []) rfl (runs_ahead rfl rfl (m := []) rfl ?_)
      exact runs_tok rfl (Runs.refl _)
  | body stop =>
      have hmem : t.type ∈ stop ∧ isClosing t.type = true := of_decide_eq_true hfollows
      exact runs_ahead rfl hahead (if_pos hmem.1) (Runs.refl _)

/-- The sample of a goal is read by the goal alone. -/
theorem sample_accepts (g : Goal) (rest : List LexResult)
    (h : ∃ t, ahead rest.head? = some t ∧ g.follows t.type = true) :
    parserTable.Runs ([g], g.sample.map .ok ++ rest) ([], rest) := by
  obtain ⟨t, hahead, hfollows⟩ := h
  exact sample_runs g hahead hfollows []

/-- The samples of the goals, in front of what may follow them. -/
def sampleWords : Predictive.Words parserTable where
  word g := g.sample.map .ok
  Follows g first := ∃ t, ahead first = some t ∧ g.follows t.type = true
  accepts := sample_accepts

section
variable {g k : Goal} {gs : List Goal}

/-- No sample begins with a lexical error. -/
theorem exists_ahead_words (gs : List Goal) :
    ∃ t, ahead (sampleWords.words gs).head? = some t := by
  induction gs with
  | nil => exact ⟨Token.eof, rfl⟩
  | cons g gs ih =>
      obtain ⟨t, ht⟩ := ih
      show ∃ t, ahead (g.sample.map Except.ok ++ sampleWords.words gs).head? = some t
      rcases g.sample with _ | ⟨token, tokens⟩
      · exact ⟨t, ht⟩
      · exact ⟨token, rfl⟩

/-- Anything may follow the goal. -/
theorem live_free (hfollows : ∀ t, g.follows t = true) (h : sampleWords.Live gs) :
    sampleWords.Live (g :: gs) := by
  obtain ⟨t, ht⟩ := exists_ahead_words gs
  exact ⟨⟨t, ht, hfollows t.type⟩, h⟩

/-- The goal is replaced by one that the same tokens may follow. -/
theorem live_swap (hfollows : ∀ t, g.follows t = true → k.follows t = true)
    (h : sampleWords.Live (g :: gs)) : sampleWords.Live (k :: gs) := by
  obtain ⟨⟨t, ht, hg⟩, hgs⟩ := h
  exact ⟨⟨t, ht, hfollows t.type hg⟩, hgs⟩

/-- A goal in front of one with an empty sample. -/
theorem live_before (hempty : g.sample = [])
    (hfollows : ∀ t, g.follows t = true → k.follows t = true) (h : sampleWords.Live (g :: gs)) :
    sampleWords.Live (k :: g :: gs) := by
  refine ⟨?_, h⟩
  obtain ⟨⟨t, ht, hg⟩, -⟩ := h
  refine ⟨t, ?_, hfollows t.type hg⟩
  show ahead (g.sample.map Except.ok ++ sampleWords.words gs).head? = some t
  rw [hempty]
  exact ht

/-- Anything may follow a node. -/
theorem live_node (h : sampleWords.Live gs) : sampleWords.Live (.node :: gs) :=
  live_free (fun _ => rfl) h

/-- A goal in front of a node, which has an empty sample. -/
theorem live_node_behind {k : Goal} (hfollows : ∀ t, g.follows t = true → k.follows t = true)
    (h : sampleWords.Live (g :: gs)) : sampleWords.Live (k :: .node :: gs) :=
  let ⟨⟨t, ht, hg⟩, hgs⟩ := h
  ⟨⟨t, ht, hfollows t.type hg⟩, live_node hgs⟩

/-- A goal in front of a token. -/
theorem live_tok {a : TokenType} (hfollows : g.follows a = true) (h : sampleWords.Live gs) :
    sampleWords.Live (g :: .tok a :: gs) :=
  ⟨⟨sampleToken a, rfl, hfollows⟩, live_free (fun _ => rfl) h⟩

/-- The closing parenthesis closes. -/
theorem closing_of_rparen {t : TokenType} (h : decide (t = .tokenRparen) = true) :
    isClosing t = true := by
  rw [of_decide_eq_true h]
  decide

/-- Only one primitive has builtin functions. -/
theorem hasMembers_of_hasMember {d : Designator} {name : SourceString}
    (h : d.hasMember name = true) : d.HasMembers := by
  cases d with
  | place => exact Or.inl rfl
  | constructor primitive =>
      by_cases hvec : primitive = .vec2
      · exact Or.inr (congrArg _ hvec)
      · have hnone : findBuiltinFunction primitive name = none := by
          simp [findBuiltinFunction, builtins, Ne.symm hvec]
        rw [Designator.hasMember, hnone] at h
        cases h
  | function => cases h

/-- The choice of a condition that takes the token. -/
theorem take_of_ite {p : Prop} [Decidable p] {takes : Bool} {ms : List Goal}
    (h : (if p then take else none) = some (takes, ms)) : p ∧ takes = true ∧ ms = [] := by
  split at h
  · rename_i hp
    cases h
    exact ⟨hp, rfl, rfl⟩
  · cases h

/-- The choice for a member. -/
theorem choice_of_member {d : Designator} {t : Token} {takes : Bool} {ms : List Goal}
    (h : Goal.table (.member d) t = some (takes, ms)) :
    d.hasMember t.value.toIdentifier = true ∧ ms = List.replicate d.nodes .node := by
  rw [Goal.table] at h
  split at h
  · rename_i hp
    cases h
    exact ⟨hp.2, rfl⟩
  · cases h

/-- The choice of a condition between two replacements. -/
theorem cases_of_ite {p : Prop} [Decidable p] {takes : Bool} {ms ms₁ ms₂ : List Goal}
    (h : (if p then expand ms₁ else expand ms₂) = some (takes, ms)) : ms₁ = ms ∨ ms₂ = ms := by
  split at h
  · cases h
    exact Or.inl rfl
  · cases h
    exact Or.inr rfl

/-- `end` ends every body that it may end. -/
theorem body_of_end {stop : List TokenType} (hmem : TokenType.tokenEnd ∈ stop) {t : TokenType}
    (h : decide (t = .tokenEnd) = true) : Goal.follows (.body stop) t = true := by
  rw [of_decide_eq_true h]
  exact decide_eq_true ⟨hmem, by decide⟩

/-- A chain with a member stays one that can be completed, or its designator has no members and the
dot was too much. -/
theorem live_chain {d : Designator} {first : Option LexResult} {t : Token} {takes : Bool}
    {ms : List Goal} (hlive : sampleWords.Live (.chain d :: gs)) (hahead : ahead first = some t)
    (htable : Goal.table (.chain d) t = some (takes, ms)) :
    sampleWords.Live (ms ++ gs) ∨ takes = true ∧
      (∃ r, first = some r ∧ ∃ dot, r = .ok dot ∧ dot.type = .tokenDot) ∧ NoMember (ms ++ gs) := by
  simp only [Goal.table] at htable
  split at htable
  · rename_i hdot
    cases htable
    have hchain : sampleWords.Live (.chain d.next :: gs) := live_swap (fun _ h => h) hlive
    -- behind the dot there has to be a member
    by_cases hmembers : d.HasMembers
    · exact Or.inl (live_free (fun _ => decide_eq_true hmembers) hchain)
    · refine Or.inr ⟨rfl, ?_, d, _, rfl, hmembers⟩
      rcases first with _ | ⟨_ | token⟩
      · cases hahead
        cases hdot
      · cases hahead
      · cases hahead
        exact ⟨_, rfl, t, rfl, hdot⟩
  · cases htable
    exact Or.inl hlive.2

/-- What replaces an atom can be completed in front of the same goals. -/
theorem live_atom {t : Token} {takes : Bool} {ms : List Goal}
    (hlive : sampleWords.Live (.atom :: gs)) (h : atomTable t = some (takes, ms)) :
    sampleWords.Live (ms ++ gs) := by
  -- what may follow an operand may follow the call that it can be
  have hcall : sampleWords.Live (.callOpt :: gs) := live_swap (fun _ h => h) hlive
  have hchain : ∀ d, sampleWords.Live (.node :: .chain d :: .callOpt :: gs) := fun d =>
    live_node (live_before rfl (fun _ h => decide_eq_true (isClosing_iff.mp h).1) hcall)
  have hskip : sampleWords.Live (.node :: .skip :: gs) :=
    live_node (live_free (fun _ => rfl) hlive.2)
  unfold atomTable at h
  split at h
  · cases h
    exact live_free (fun _ => rfl) (hchain _)
  · cases h
    exact live_free (fun _ => rfl) (hchain _)
  · cases h
    exact live_node hlive.2
  · cases h
    exact live_free (fun _ => rfl) (live_free (fun _ => rfl) (live_free (fun _ => rfl) hskip))
  · cases h
    exact live_free (fun _ => rfl) (live_free (fun _ => rfl) (live_free (fun _ => rfl) hskip))
  · cases h

/-- What replaces a primary expression can be completed. -/
theorem live_primary {t : Token} {takes : Bool} {ms : List Goal}
    (hlive : sampleWords.Live (.primary :: gs)) (h : Goal.table .primary t = some (takes, ms)) :
    sampleWords.Live (ms ++ gs) := by
  simp only [Goal.table] at h
  split at h
  · cases h
    exact live_free (fun _ => rfl) (live_tok rfl hlive.2)
  · split at h
    · cases h
      exact live_free (fun _ => rfl) (live_node_behind (fun _ h => h) hlive)
    · split at h
      · cases h
      · cases h
        exact live_swap (fun _ h => h) hlive

/-- What replaces the rest behind a name can be completed. -/
theorem live_identRest {t : Token} {takes : Bool} {ms : List Goal}
    (hlive : sampleWords.Live (.identRest :: gs))
    (h : Goal.table .identRest t = some (takes, ms)) : sampleWords.Live (ms ++ gs) := by
  simp only [Goal.table] at h
  split at h
  · cases h
    exact live_free (fun _ => rfl) (live_node_behind (fun _ h => h) hlive)
  · split at h
    · cases h
      exact live_free (fun _ => rfl) hlive.2
    · cases h

/-- What replaces a statement can be completed. -/
theorem live_stmt {t : Token} {take : Bool} {ms : List Goal}
    (hlive : sampleWords.Live (.stmt :: gs)) (h : stmtTable t = some (take, ms)) :
    sampleWords.Live (ms ++ gs) := by
  have hexpr : sampleWords.Live (.expr 0 :: .node :: gs) := live_node_behind (fun _ h => h) hlive
  have hend : sampleWords.Live (.body endStop :: .tok .tokenEnd :: gs) := live_tok rfl hlive.2
  unfold stmtTable at h
  split at h
  · cases h
    exact live_free (fun _ => rfl) (live_free (fun _ => rfl) (live_tok rfl hexpr))
  · cases h
    refine live_free (fun _ => rfl) (live_free (fun _ => rfl) (live_node ?_))
    refine live_free (fun _ => rfl) (live_tok rfl ?_)
    -- the type is optional in front of the body, which may be empty
    have htype : sampleWords.Live (.typeOpt :: .body endStop :: .tok .tokenEnd :: gs) :=
      live_before rfl (fun t ht => (of_decide_eq_true ht).2) hend
    exact live_node_behind (fun _ h => h) htype
  · cases h
    exact live_free (fun _ => rfl) hexpr
  · cases h
    have helse : sampleWords.Live (.elseOpt :: .tok .tokenEnd :: gs) := live_tok rfl hlive.2
    refine live_free (fun _ => rfl) (live_node (live_before rfl (fun _ h => h) ?_))
    exact live_before rfl (fun _ h => h) helse
  · cases h
    have hdo : sampleWords.Live (.expr 0 :: .tok .tokenDo :: .node :: .body endStop ::
        .tok .tokenEnd :: gs) := live_tok rfl (live_node hend)
    exact live_free (fun _ => rfl) (live_node_behind (fun _ h => h) hdo)
  · cases h
    have hrest : sampleWords.Live (.identRest :: gs) := live_swap (fun _ h => h) hlive
    have hchain : sampleWords.Live (.chain .place :: .identRest :: gs) :=
      ⟨⟨sampleToken .tokenLparen, rfl, rfl⟩, hrest⟩
    exact live_free (fun _ => rfl) (live_node hchain)
  · cases h

/-- A choice that looks at no token leaves a live stack behind. -/
theorem live_of_always {first : Option LexResult} {takes : Bool} {ms : List Goal}
    (hlive : sampleWords.Live (g :: gs)) (h : g.always first = some (takes, ms)) :
    sampleWords.Live (ms ++ gs) := by
  cases g with
  | skip =>
      rw [Goal.always] at h
      split at h
      · cases h
      · cases h
        exact hlive.2
  | node =>
      cases h
      exact hlive.2
  | call =>
      cases h
      have hrparen : sampleWords.Live (.args :: .tok .tokenRparen :: gs) := live_tok rfl hlive.2
      refine live_node (live_free (fun _ => rfl) ?_)
      exact live_before rfl (fun _ h => h) hrparen
  | expr m =>
      cases h
      have hclimb : sampleWords.Live (.climb m :: gs) := live_swap (fun _ h => h) hlive
      exact live_before rfl (fun _ h => h) hclimb
  | type =>
      cases h
      exact live_free (fun _ => rfl) (live_free (fun _ => rfl) hlive.2)
  | params =>
      cases h
      have hrest : sampleWords.Live (.paramsRest :: gs) := live_swap (fun _ h => h) hlive
      exact live_free (fun _ => rfl) (live_free (fun _ => rfl) (live_node hrest))
  | branch =>
      cases h
      -- the sample of a branch ends with `end`, which ends any body of a conditional
      have hbody : sampleWords.Live (.body ifBodyStop :: gs) :=
        live_swap (g := .branch) (fun _ h => body_of_end (by decide) h) hlive
      exact live_tok rfl (live_node hbody)
  | _ => cases h

/-- Nodes in front of a live stack. -/
theorem live_nodes (n : Nat) (h : sampleWords.Live gs) :
    sampleWords.Live (List.replicate n .node ++ gs) := by
  induction n with
  | zero => exact h
  | succ n ih => exact live_node ih

/-- So does a choice for a token, that of a member chain apart. -/
theorem live_of_table {t : Token} {takes : Bool} {ms : List Goal} (hchain : ∀ d, g ≠ .chain d)
    (hlive : sampleWords.Live (g :: gs)) (h : g.table t = some (takes, ms)) :
    sampleWords.Live (ms ++ gs) := by
  cases g with
  | tok a =>
      obtain ⟨-, rfl, rfl⟩ := take_of_ite h
      exact hlive.2
  | member d =>
      obtain ⟨-, rfl⟩ := choice_of_member h
      exact live_nodes d.nodes hlive.2
  | typeName =>
      obtain ⟨-, rfl, rfl⟩ := take_of_ite h
      exact hlive.2
  | chain d => exact absurd rfl (hchain d)
  | callOpt =>
      rcases cases_of_ite h with rfl | rfl
      · exact live_free (fun _ => rfl) hlive.2
      · exact hlive.2
  | firstArg =>
      rcases cases_of_ite h with rfl | rfl
      · exact hlive.2
      · exact live_swap (g := .firstArg) (fun _ h => closing_of_rparen h) hlive
  | args =>
      rcases cases_of_ite h with rfl | rfl
      · -- behind an argument come more arguments or the closing parenthesis
        have hexpr : sampleWords.Live (.expr 0 :: .args :: gs) :=
          live_before rfl (fun _ h => closing_of_rparen h) hlive
        exact live_free (fun _ => rfl) hexpr
      · exact hlive.2
  | atom => exact live_atom hlive h
  | primary => exact live_primary hlive h
  | climb m =>
      rcases cases_of_ite h with rfl | rfl
      · have hexpr : ∀ n, sampleWords.Live (.expr n :: .climb m :: gs) := fun n =>
          live_before rfl (fun _ h => h) hlive
        exact live_free (fun _ => rfl) (live_node_behind (fun _ h => h) (hexpr _))
      · exact hlive.2
  | typeOpt =>
      rcases cases_of_ite h with rfl | rfl
      · exact live_free (fun _ => rfl) hlive.2
      · exact hlive.2
  | paramsRest =>
      rcases cases_of_ite h with rfl | rfl
      · exact live_free (fun _ => rfl) (live_swap (fun _ h => h) hlive)
      · exact hlive.2
  | paramsOpt =>
      rcases cases_of_ite h with rfl | rfl
      · exact hlive.2
      · exact live_swap (g := .paramsOpt) (fun _ h => closing_of_rparen h) hlive
  | elifs =>
      rcases cases_of_ite h with rfl | rfl
      · exact live_free (fun _ => rfl) (live_before rfl (fun _ h => h) hlive)
      · exact hlive.2
  | elseOpt =>
      rcases cases_of_ite h with rfl | rfl
      · have hbody : sampleWords.Live (.body ifBodyStop :: gs) :=
          live_swap (g := .elseOpt) (fun _ h => body_of_end (by decide) h) hlive
        exact live_free (fun _ => rfl) (live_node hbody)
      · exact hlive.2
  | stmt => exact live_stmt hlive h
  | identRest => exact live_identRest hlive h
  | body stop =>
      rcases cases_of_ite h with rfl | rfl
      · exact hlive.2
      · exact live_before rfl (fun _ h => (of_decide_eq_true h).2) hlive
  | _ => cases h

/-- A designator without members has no choice for any token. -/
theorem blocked_of_noMember {ts : List LexResult} (h : NoMember gs) :
    parserTable.Blocked (gs, ts) := by
  obtain ⟨d, rest, rfl, hmembers⟩ := h
  refine ⟨_, _, rfl, ?_⟩
  rw [Option.eq_none_iff_forall_ne_some]
  rintro ⟨take, ms⟩ hselect
  rcases choice_of_select hselect with halways | ⟨t, -, htable⟩
  · cases halways
  · obtain ⟨hhas, -⟩ := choice_of_member htable
    exact hmembers (hasMembers_of_hasMember hhas)

/-- What the choices leave behind is live again. The exception is the dot behind a primitive. -/
theorem sampleWords_keeps :
    sampleWords.Keeps (fun r => ∃ dot, r = .ok dot ∧ dot.type = .tokenDot) NoMember := by
  refine ⟨fun g gs first takes ms hlive hselect => ?_, fun _ _ => blocked_of_noMember⟩
  rcases choice_of_select hselect with halways | ⟨t, hahead, htable⟩
  · exact Or.inl (live_of_always hlive halways)
  · by_cases hchain : ∃ d, g = .chain d
    · obtain ⟨d, rfl⟩ := hchain
      exact live_chain hlive hahead htable
    · exact Or.inl (live_of_table (not_exists.mp hchain) hlive htable)

end

end Nucleus.Proofs
