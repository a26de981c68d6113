import Nucleus.Proofs.Statements

/-!
# `Nucleus.Proofs.Parse`: a whole run of `nulang__parse`

`Ast.HoldsModule a ts`: the arena `a` is the root with the trees `ts` below it, and nothing
else. `parse_spec` is the run of `nulang__parse` from a cleared arena: if it succeeds, the
results are those of a module, and the arena holds the syntax of its derivation.
-/

set_option autoImplicit false

namespace Nucleus.Lang

open Nucleus.Lib
open Nucleus.Spec

/-- The arena has the root only, without children. -/
structure Ast.Cleared (a : Ast) : Prop where
  root : a.root = 0
  nodeCount : a.nodeCount = 1
  capacity : 0 < a.nodeCapacity.toNat
  links : a.links 0 = ⟨nodeNull, nodeNull, nodeNull, nodeNull⟩
  asserts : a.asserts = true

/-- A fresh arena is cleared. -/
theorem astInit_cleared {nodeCapacity : UInt32} (memory : NodeId → Node)
    (h : 0 < nodeCapacity.toNat) : (astInit nodeCapacity memory).Cleared :=
  ⟨rfl, rfl, h, rfl, rfl⟩

/-- Clearing an arena, whatever it holds, makes it cleared. -/
theorem astClear_cleared {a : Ast} (hroot : a.root = 0) (h : 0 < a.nodeCapacity.toNat) :
    (astClear a).Cleared :=
  ⟨hroot, rfl, h, rfl, rfl⟩

/-- The arena is the root and the trees `ts` below it. -/
structure Ast.HoldsModule (a : Ast) (ts : Located) : Prop where
  valid : a.Valid
  root : a.root = 0
  links : Links.Holds nodeNull a.links nodeNull nodeNull (.tree 0 (ids ts))
  kinds : ∀ x ∈ ts.labels, (a.nodes x.1).kind = x.2
  perm : (0 :: (ids ts).labels).Perm (List.range a.nodeCount)
  asserts : a.asserts = true

/-- A cleared arena holds the empty module. -/
theorem Ast.Cleared.holdsModule {a : Ast} (h : a.Cleared) : a.HoldsModule .nil where
  valid := ⟨by rw [h.nodeCount]; decide, by rw [h.nodeCount]; exact h.capacity⟩
  root := h.root
  links := by
    rw [ids_nil, Links.holds_tree]
    exact ⟨h.links, trivial⟩
  kinds := by simp
  perm := by rw [h.nodeCount]; decide
  asserts := h.asserts

/-- The nodes of a module are in use. -/
theorem Ast.HoldsModule.lt {a : Ast} {ts : Located} (h : a.HoldsModule ts) {i : Nat}
    (hi : i ∈ 0 :: (ids ts).labels) : i < a.nodeCount :=
  List.mem_range.mp (h.perm.mem_iff.mp hi)

end Nucleus.Lang

namespace Nucleus.Proofs

open Nucleus.Lib
open Nucleus.Lib.Prog
open Nucleus.Lang
open Nucleus.Spec

/-- Appending a new statement to the root. -/
theorem holdsModule_append {a b : Ast} {ts cs : Located} {x : NodeId × Kind}
    (h : a.HoldsModule ts) (hb : Builds a b [] (.tree x cs)) :
    (appendChild b 0 x.1).HoldsModule (ts ++ .tree x cs) := by
  have hcount := hb.count
  -- the way from `a` to `b` wrote new nodes only
  have hkeep : ∀ i ∈ 0 :: (ids ts).labels, b.nodes i = a.nodes i :=
    fun i hi => hb.frame i (h.lt hi) (by simp)
  have hroot : Links.Holds nodeNull b.links nodeNull nodeNull (.tree 0 (ids ts)) := by
    refine h.links.congr fun i hi => ?_
    unfold Ast.links
    rw [hkeep i (by simpa using hi)]
  have hnew : ∀ i ∈ (ids (.tree x cs)).labels, a.nodeCount ≤ i ∧ i < b.nodeCount := fun i hi =>
    (hb.mem_or hi).resolve_left (by simp)
  have hperm : (0 :: (ids ts).labels ++ (ids (.tree x cs)).labels).Perm
      (List.range b.nodeCount) := by
    refine (h.perm.append hb.perm).trans ?_
    obtain ⟨m, hm⟩ := Nat.exists_eq_add_of_le hcount
    have hsub : b.nodeCount - a.nodeCount = m := by omega
    rw [List.nil_append, List.range_eq_range', List.range_eq_range', hsub, hm]
    have happend := List.range'_append_1 (s := 0) (m := a.nodeCount) (n := m)
    rw [Nat.zero_add] at happend
    rw [happend]
  have hlabels : (Forest.tree 0 (ids ts) ++ Forest.tree x.1 (ids cs)).labels =
      0 :: (ids ts).labels ++ (ids (.tree x cs)).labels := by simp
  obtain ⟨hasserts, hholds, hframe⟩ := appendChild_spec hb.valid hroot
    (by simpa using hb.owns.floats)
    (by rw [hlabels]; exact hperm.nodup_iff.mpr List.nodup_range)
    (fun i hi => by rw [hlabels] at hi; exact List.mem_range.mp (hperm.mem_iff.mp hi))
    (Nat.pos_iff_ne_zero.mp (hb.owns.bounds x.1 (by simp)).1)
  refine ⟨⟨by simpa using hb.valid.pos, by simpa using hb.valid.le⟩, ?_, ?_, ?_, ?_, ?_⟩
  · rw [appendChild_root, hb.root, h.root]
  · rw [ids_append, ids_tree]
    exact hholds
  · intro y hy
    rw [kind_appendChild]
    rw [Forest.labels_append] at hy
    rcases List.mem_append.mp hy with hy | hy
    · rw [hkeep y.1 (List.mem_cons_of_mem _ (mem_ids hy))]
      exact h.kinds y hy
    · exact hb.owns.kinds y hy
  · rw [appendChild_nodeCount, ids_append, Forest.labels_append]
    exact hperm
  · rw [hasserts, hb.asserts, h.asserts]

variable {L : Type} [TokenSource L] [LawfulTokenSource L]

/-- The first loop of `nulang__parse` reads nothing, and ends at anything but a header token. -/
theorem parseHeader_spec : ∀ (n : Nat) {p : Parser L} {rs : List LexResult} {a : Ast},
    At p rs a →
    Spec (loop parseHeader n ()) p fun _ p' =>
      At p' rs a ∧ ∀ t, lookahead rs = some t → t ∉ headerTokens := by
  intro n
  induction n with
  | zero => exact fun _ => Spec.diverge
  | succ n ih =>
      intro p rs a h
      rw [loop_succ]
      refine Spec.bind (Spec.bind (parserPeek_spec h fun tok p₁ hhead h₁ => ?_))
      split
      · -- a token of the header is not read, and the loop comes back to it
        exact Spec.pure (ih h₁)
      · split
        · exact Spec.pure (ih h₁)
        · rename_i himport hfrom
          refine Spec.pure (Spec.pure ⟨h₁, fun t ht => ?_⟩)
          obtain rfl : tok.type = t := Option.some.inj (hhead.lookahead.symm.trans ht)
          simp only [headerTokens, List.mem_cons, List.not_mem_nil, or_false, not_or]
          exact ⟨himport, hfrom⟩

/-- At an idle token the second loop of `nulang__parse` never ends. -/
theorem moduleLoop_idle {self : Productions L} (hself : Idles self)
    {rs : List LexResult} {t : TokenType} (ht : lookahead rs = some t) (hidle : t ∈ idleTokens)
    (n : Nat) {p : Parser L} {a : Ast} (stmt : NodeId) (h : At p rs a) :
    loop (parseModuleStmt self) n stmt p = none := by
  refine loop_eq_none_of_stuck (I := fun _ p => ∃ a, At p rs a) ?_ n stmt p ⟨a, h⟩
  rintro stmt p ⟨a, h⟩
  obtain ⟨tok, p₁, hpeek, htok, h₁⟩ := parserPeek_returns (Q := fun tok p' =>
    tok.type = t ∧ At p' rs a) h ht fun tok p' _ htype hat => ⟨htype, hat⟩
  unfold parseModuleStmt
  have heof : tok.type ≠ .tokenEof := by
    rw [htok]
    rintro rfl
    exact absurd hidle (by decide)
  rw [bind_run_ok hpeek, if_neg heof]
  rcases hself p₁ rs a t h₁ ht hidle with hnone | ⟨p₂, hstmt, h₂⟩
  · exact Or.inl (bind_run_none hnone)
  · refine Or.inr ⟨stmt, _, ?_, _, parserAppendChild_at h₂ p₂.ast.root stmt⟩
    rw [bind_run_ok hstmt]
    rfl

/-- The second loop of `nulang__parse`: the statements of the module. -/
theorem parseModule_spec {self : Productions L} (hself : Correct self) :
    ∀ (n : Nat) {p : Parser L} {rs : List LexResult} {a : Ast} {ts : Located} (stmt : NodeId),
      At p rs a → a.HoldsModule ts →
      Spec (loop (parseModuleStmt self) n stmt) p fun _ p' =>
        ∃ ss b, At p' [] b ∧ b.HoldsModule (ts ++ ss) ∧
          b.nodeCapacity = a.nodeCapacity ∧ Derives (.body moduleStop) rs (syn ss) [] := by
  intro n
  induction n with
  | zero => exact fun _ _ _ => Spec.diverge
  | succ n ih =>
      intro p rs a ts stmt h hm
      rw [loop_succ]
      refine Spec.bind (Spec.bind (parserPeek_spec h fun tok p₁ hhead h₁ => ?_))
      have ht := hhead.lookahead
      split
      · rename_i heof
        -- at the end of the source the loop is left
        obtain rfl := h₁.eq_nil (ht.trans (by rw [heof]))
        refine Spec.pure (Spec.pure ⟨.nil, a, h₁, ?_, rfl, .bodyEnd ht (by rw [heof]; decide)⟩)
        rw [Forest.append_nil]
        exact hm
      · rename_i heof
        have hstop : tok.type ∉ moduleStop := by simpa [moduleStop] using heof
        refine Spec.bind ((hself.stmt p₁ rs a h₁ hm.valid).mono ?_)
        rintro (_ | id) p₂ hres
        -- an idle token: the next turn finds it again
        · obtain ⟨h₂, t, ht', hidle⟩ := hres
          obtain rfl : tok.type = t := Option.some.inj (ht.symm.trans ht')
          refine Spec.bind (Spec.gets (Spec.bind (parserAppendChild_spec h₂ fun p₃ h₃ => ?_)))
          exact Spec.pure (Spec.of_none (moduleLoop_idle hself.idle ht hidle n stmt h₃))
        -- a statement: its tree is appended to the root, and the loop goes on behind it
        · obtain ⟨k, cs, rs₁, b, h₂, hb, hstmt⟩ := hres
          have hroot : p₂.ast.root = 0 := by rw [h₂.ast, hb.root, hm.root]
          refine Spec.bind (Spec.gets ?_)
          rw [hroot]
          refine Spec.bind (parserAppendChild_spec h₂ fun p₃ h₃ => Spec.pure ?_)
          refine (ih _ h₃ (holdsModule_append hm hb)).mono ?_
          rintro - p' ⟨ss, b', h', hm', hcap, hbody⟩
          refine ⟨.tree (id, k) cs ++ ss, b', h', ?_, ?_, ?_⟩
          · rw [← Forest.append_assoc]
            exact hm'
          · rw [hcap, appendChild_nodeCapacity, hb.capacity]
          · rw [syn_append]
            exact .bodyStmt ht hstop hstmt hbody

/-- A run of `nulang__parse` from a cleared arena. -/
theorem parse_spec {fuel : Nat} {p : Parser L} {rs : List LexResult} {a : Ast} (h : At p rs a)
    (ha : a.Cleared) :
    Spec (parse fuel) p fun _ p' =>
      ∃ ts b, At p' [] b ∧ b.HoldsModule ts ∧ b.nodeCapacity = a.nodeCapacity ∧
        DerivesModule rs (syn ts) := by
  refine Spec.bind ((parseHeader_spec fuel h).mono ?_)
  rintro - p₁ ⟨h₁, hheader⟩
  refine Spec.bind (Spec.gets ?_)
  refine Spec.bind ((parseModule_spec (correct fuel) fuel _ h₁ ha.holdsModule).mono ?_)
  rintro - p₂ ⟨ss, b, h₂, hm, hcap, hbody⟩
  refine Spec.bind (Spec.bind (parserConsume_spec h₂ fun tok p₃ hhead h₃ => ?_))
  split
  · exact Spec.bind (report_spec h₃ fun p₄ _ => Spec.fail)
  · exact Spec.pure (Spec.pure ⟨ss, b, h₃, hm, hcap, hheader, hbody⟩)

end Nucleus.Proofs
