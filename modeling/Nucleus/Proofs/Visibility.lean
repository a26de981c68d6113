import Mathlib.Data.List.Perm.Subperm
import Nucleus.Proofs.Capacity
import Nucleus.Proofs.Scoping

/-!
# `Nucleus.Proofs.Visibility`: resolution of symbols is lexical scoping

The stack that the resolver has at a node is the set of the declarations that are visible there
(`mem_stack_iff`). So the checks of the walk are the conditions of `Ast.Scoped`, and the run of
`nulang__resolve_symbols` succeeds exactly when the tree is scoped (`resolveSymbols_scoped_iff`).
-/

set_option autoImplicit false

namespace Nucleus.Proofs

open Nucleus.Lib
open Nucleus.Lib.Prog
open Nucleus.Lang
open Nucleus.Spec

/-! ### The nodes of the tree -/

section
variable {a : Ast} {cs : Forest Nat}

/-- The functions at the top level are nodes of the tree, in order. -/
theorem functions_sublist : (functions a cs).Sublist (Forest.tree 0 cs).labels := by
  rw [Forest.labels_tree]
  exact (List.filter_sublist.trans (Forest.roots_sublist_labels cs)).cons 0

/-- The nodes below the root are the nodes that the resolver walks over. -/
theorem exists_visit {n : NodeId} (hn : n ∈ (Forest.tree 0 cs).labels) (hne : n ≠ 0) :
    ∃ env, (n, env) ∈ cs.visits a.IsLocal a.IsScope (functions a cs).reverse := by
  rw [Forest.labels_tree] at hn
  have hmem := List.mem_of_ne_of_mem hne hn
  rw [← Forest.map_fst_visits a.IsLocal a.IsScope cs
    (functions a cs).reverse] at hmem
  obtain ⟨⟨_, env⟩, hv, rfl⟩ := List.mem_map.mp hmem
  exact ⟨env, hv⟩

/-- What the resolver walks over is in the tree. -/
theorem mem_labels_of_visit {v : NodeId × List NodeId}
    (hv : v ∈ cs.visits a.IsLocal a.IsScope (functions a cs).reverse) :
    v.1 ∈ (Forest.tree 0 cs).labels := by
  rw [Forest.labels_tree, ← Forest.map_fst_visits a.IsLocal a.IsScope cs]
  exact List.mem_cons_of_mem _ (List.mem_map_of_mem hv)

/-- A visible declaration is in the tree. -/
theorem mem_of_visible {d n : NodeId} (h : a.Visible (.tree 0 cs) d n) :
    d ∈ (Forest.tree 0 cs).labels := by
  rcases h with h | ⟨-, hbefore, -⟩
  · exact h.2.right_mem
  · exact hbefore.left_mem

end

/-- No label stands before itself. -/
theorem not_before_self {f : Forest Nat} {n : NodeId} (hnd : f.labels.Nodup) : ¬ f.Before n n := by
  intro hbefore
  have hpair : ([n, n] : List NodeId).Nodup := List.Sublist.nodup hbefore hnd
  simp at hpair

section
variable {a : Ast} {cs : Forest Nat} (hmod : a.IsModule (.tree 0 cs))
include hmod

/-! ### Functions -/

/-- The global declarations are the functions at the top level. -/
theorem isGlobal_iff {d : NodeId} : a.IsGlobal (.tree 0 cs) d ↔ d ∈ functions a cs := by
  obtain ⟨⟨h0, -⟩, -⟩ := Forest.nodup_labels_cons.mp hmod.nodup
  have hchild : (Forest.tree 0 cs).Child a.root d ↔ d ∈ cs.roots := by
    rw [hmod.root]
    constructor
    · rintro (⟨-, h⟩ | h | h)
      · exact h
      · exact absurd h.left_mem h0
      · exact h.elim
    · exact fun h => Or.inl ⟨rfl, h⟩
  rw [Ast.IsGlobal, hchild, functions, List.mem_filter, decide_eq_true_eq, and_comm]

/-- The functions have different names when none has the name of one before it. -/
theorem functions_distinct_iff :
    (functions a cs).reverse.Pairwise (fun d d' => ¬ a.SameName d' d) ↔
      ∀ n ∈ (Forest.tree 0 cs).labels, a.IsGlobal (.tree 0 cs) n →
        ∀ d, a.IsGlobal (.tree 0 cs) d → (Forest.tree 0 cs).Before d n → ¬ a.SameName d n := by
  rw [List.pairwise_reverse, List.pairwise_iff_forall_sublist]
  have hsub : (functions a cs).Sublist (Forest.tree 0 cs).labels := functions_sublist
  constructor
  · intro hall n _ hn d hd hbefore
    rw [isGlobal_iff hmod] at hn hd
    exact hall (Forest.pair_sublist_of_sublist hsub hmod.nodup hd hn hbefore)
  · intro hall d n hdn
    have hd : d ∈ functions a cs := hdn.subset (by simp)
    have hn : n ∈ functions a cs := hdn.subset (by simp)
    exact hall n (hsub.subset hn) ((isGlobal_iff hmod).mpr hn) d ((isGlobal_iff hmod).mpr hd)
      (hdn.trans hsub)

/-! ### The stack -/

/-- The root declares nothing. -/
theorem ne_root_of_isLocal {n : NodeId} (hn : a.IsLocal n) : n ≠ 0 := by
  rintro rfl
  rcases hn with heq | heq
  all_goals
    rw [hmod.type] at heq
    cases heq

/-- No scope is a local declaration. -/
theorem not_isLocal_of_isScope {n : NodeId} (hn : a.IsScope n) : ¬ a.IsLocal n := by
  rintro hlocal
  have hne := ne_root_of_isLocal hmod hlocal
  rw [← hmod.root] at hne
  rcases hn with heq | heq | heq
  · rcases hlocal with h | h
    all_goals
      rw [heq] at h
      cases h
  · rcases hlocal with h | h
    all_goals
      rw [heq] at h
      cases h
  · exact hne heq

/-- Below the root, a local declaration is visible by the scopes that are not the root. -/
theorem nearest_iff {d n : NodeId} (hd : d ∈ cs.labels) (hn : n ∈ cs.labels) :
    (∃ s, (Forest.tree 0 cs).Nearest a.IsScope s d ∧ (Forest.tree 0 cs).Above s n) ↔
      ∀ s, a.IsScope s → cs.Above s d → cs.Above s n := by
  obtain ⟨⟨h0, -⟩, -⟩ := Forest.nodup_labels_cons.mp hmod.nodup
  have habove : ∀ {s m : Nat}, m ∈ cs.labels →
      ((Forest.tree 0 cs).Above s m ↔ s = 0 ∨ cs.Above s m) := fun hm =>
    Forest.above_children hmod.nodup hm
  rw [Forest.nearest_above_iff hmod.nodup
    ⟨0, Or.inr (Or.inr hmod.root.symm), (habove hd).mpr (Or.inl rfl)⟩]
  constructor
  · intro hall s hs hsd
    refine ((habove hn).mp (hall s hs ((habove hd).mpr (Or.inr hsd)))).resolve_left ?_
    rintro rfl
    exact h0 hsd.left_mem
  · intro hall s hs hsd
    rw [habove hn]
    exact ((habove hd).mp hsd).imp_right (hall s hs)

/-- On the resolver's stack at a node are the declarations that are visible there. -/
theorem mem_stack_iff {d n : NodeId} {env : List NodeId}
    (h : (n, env) ∈ cs.visits a.IsLocal a.IsScope (functions a cs).reverse) :
    d ∈ env ↔ a.Visible (.tree 0 cs) d n := by
  obtain ⟨-, hnd, -, -⟩ := Forest.nodup_labels_cons.mp hmod.nodup
  have hn : n ∈ cs.labels := by
    rw [← Forest.map_fst_visits a.IsLocal a.IsScope cs]
    exact List.mem_map_of_mem h
  rw [Forest.mem_visits (fun s => not_isLocal_of_isScope hmod) hnd h, List.mem_reverse,
    ← isGlobal_iff hmod]
  refine or_congr Iff.rfl (and_congr_right fun hlocal => ?_)
  have hbefore : (Forest.tree 0 cs).Before d n ↔ cs.Before d n := by
    rw [Forest.tree, Forest.before_children hmod.nodup hn,
      or_iff_right (ne_root_of_isLocal hmod hlocal)]
  rw [hbefore]
  exact and_congr_right fun hd => (nearest_iff hmod hd.left_mem hn).symm

/-! ### The condition -/

/-- What decides the run is that the tree is scoped. -/
theorem scoped_iff :
    ((functions a cs).reverse.Pairwise (fun d d' => ¬ a.SameName d' d) ∧
      ∀ v ∈ cs.visits a.IsLocal a.IsScope (functions a cs).reverse, Check a v) ↔
        a.Scoped (.tree 0 cs) := by
  rw [functions_distinct_iff hmod]
  constructor
  · rintro ⟨hglobal, hchecks⟩
    refine ⟨fun n hn htype => ?_, fun n hn hlocal d hd => ?_, hglobal⟩
    · have hne : n ≠ 0 := by
        rintro rfl
        rw [hmod.type] at htype
        cases htype
      obtain ⟨env, hv⟩ := exists_visit hn hne
      obtain ⟨d, hd, hsame⟩ := (hchecks _ hv).refers htype
      exact ⟨d, (mem_stack_iff hmod hv).mp hd, hsame⟩
    · obtain ⟨env, hv⟩ := exists_visit hn (ne_root_of_isLocal hmod hlocal)
      exact (hchecks _ hv).declares hlocal d ((mem_stack_iff hmod hv).mpr hd)
  · -- the same facts the other way round, since the stack has exactly what is visible
    intro h
    refine ⟨h.globals, fun v hv => ⟨fun hlocal d hd => ?_, fun htype => ?_⟩⟩
    · exact h.locals v.1 (mem_labels_of_visit hv) hlocal d ((mem_stack_iff hmod hv).mp hd)
    · obtain ⟨d, hd, hsame⟩ := h.symrefs v.1 (mem_labels_of_visit hv) htype
      exact ⟨d, (mem_stack_iff hmod hv).mpr hd, hsame⟩

/-- Every declaration is on the stack once. -/
theorem nodup_stack {v : NodeId × List NodeId}
    (hv : v ∈ cs.visits a.IsLocal a.IsScope (functions a cs).reverse) : v.2.Nodup := by
  obtain ⟨-, hnd, -, -⟩ := Forest.nodup_labels_cons.mp hmod.nodup
  refine Forest.nodup_visits hnd (List.nodup_reverse.mpr (functions_sublist.nodup hmod.nodup)) ?_ hv
  intro d hd
  rw [List.mem_reverse, functions, List.mem_filter, decide_eq_true_eq] at hd
  exact not_isLocal_of_isScope hmod (Or.inr (Or.inl hd.2))

/-- A declaration is not one of those that it finds. -/
theorem not_visible_self {n : NodeId} (hlocal : a.IsLocal n) :
    ¬ a.Visible (.tree 0 cs) n n := by
  rintro (hglobal | ⟨-, hbefore, -⟩)
  · exact not_isLocal_of_isScope hmod (Or.inr (Or.inl hglobal.1)) hlocal
  · exact not_before_self hmod.nodup hbefore

/-- No declaration is on the stack before its own node. -/
theorem notMem_stack {v : NodeId × List NodeId}
    (hv : v ∈ cs.visits a.IsLocal a.IsScope (functions a cs).reverse) (hlocal : a.IsLocal v.1) :
    v.1 ∉ v.2 :=
  fun hmem => not_visible_self hmod hlocal ((mem_stack_iff hmod hv).mp hmem)

/-- The declarations that are in force at a node fit on the stack. -/
theorem room_of_fits (hfits : a.SymbolsFit (.tree 0 cs) maxSymbols) {v : NodeId × List NodeId}
    (hv : v ∈ cs.visits a.IsLocal a.IsScope (functions a cs).reverse) (hlocal : a.IsLocal v.1) :
    v.2.length < maxSymbols := by
  have hn := mem_labels_of_visit hv
  have hnd : (v.1 :: v.2).Nodup :=
    List.nodup_cons.mpr ⟨notMem_stack hmod hv hlocal, nodup_stack hmod hv⟩
  have hle := hfits v.1 hn (v.1 :: v.2) hnd fun d hd => by
    rcases List.mem_cons.mp hd with rfl | hd
    · exact Or.inr ⟨rfl, hlocal⟩
    · exact Or.inl ((mem_stack_iff hmod hv).mp hd)
  rw [List.length_cons] at hle
  omega

/-- The functions fit on the stack. -/
theorem functions_fit (hfits : a.SymbolsFit (.tree 0 cs) maxSymbols) :
    (functions a cs).length ≤ maxSymbols := by
  refine hfits 0 (by simp) _ ((functions_sublist).nodup hmod.nodup) fun d hd => ?_
  exact Or.inl (Or.inl ((isGlobal_iff hmod).mpr hd))

/-- The nodes of the tree are allocated. -/
theorem size_lt_nodeCount : cs.size + 1 ≤ a.nodeCount := by
  have hsub : (Forest.tree 0 cs).labels ⊆ List.range a.nodeCount := fun i hi =>
    List.mem_range.mpr (hmod.lt i hi)
  have hle := (List.Nodup.subperm hmod.nodup hsub).length_le
  rwa [Forest.length_labels, Forest.size_tree, List.length_range] at hle

end

/-! ### The trees of the parser -/

/-- A node that is no module stores the value of its type. -/
theorem value_of_symref {n : Node} (htype : n.type = .astSymref) (hkind : n.kind ≠ .module) :
    ∃ ref name, n.value = .symref ref name := by
  unfold Node.kind at hkind
  rw [htype] at hkind
  split at hkind <;> simp_all

/-- The name of a node is one of those that its kind names. -/
theorem name_of_kind {S : SourceString → Prop} {n : Node} (htype : n.type.isNamed = true)
    (hkind : n.kind ≠ .module) (h : n.kind.Named S) : S n.value.name := by
  unfold Node.kind at hkind h
  split at hkind <;> simp_all [NodeType.isNamed, Kind.Named, NodeValue.name]

/-- Well-shaped syntax has no module in it. -/
theorem ne_module_of_wellShaped {s : Syn} (h : Spec.WellShaped s) :
    ∀ k ∈ s.labels, k ≠ .module := by
  induction s with
  | nil => exact fun k hk => absurd hk List.not_mem_nil
  | cons k cs next ihc ihn =>
      obtain ⟨hk, hcs, hnext⟩ := h
      rw [Forest.labels_cons, List.forall_mem_cons, List.forall_mem_append]
      refine ⟨?_, ihc hcs, ihn hnext⟩
      rintro rfl
      exact hk

/-- Every node of a stored module but the root has a kind of its syntax. -/
theorem kind_mem_of_holds {a : Ast} {ts : Located} (h : a.HoldsModule ts) {i : NodeId}
    (hi : i ∈ (Forest.tree 0 (ids ts)).labels) (hne : i ≠ 0) :
    (a.nodes i).kind ∈ (syn ts).labels := by
  rw [Forest.labels_tree, List.mem_cons] at hi
  have hmem := hi.resolve_left hne
  rw [ids, Forest.labels_map] at hmem
  obtain ⟨x, hx, rfl⟩ := List.mem_map.mp hmem
  rw [h.kinds x hx, syn, Forest.labels_map]
  exact List.mem_map_of_mem hx

/-- A parse that succeeds leaves in the arena a module with the syntax of the source. -/
theorem module_of_parse {source : Source} {ast : Ast} {error : ErrorData} {uninit : NodeId}
    {fuel : Nat} {p : Parser Lexer} (hast : ast.Blank)
    (h : parse fuel (parserStart source ast error uninit) = some (.ok (), p)) :
    ∃ ts, p.ast.IsModule (.tree 0 (ids ts)) ∧ p.ast.HoldsModule ts ∧
      Derives (.body moduleStop) (resultsOf source) (syn ts) [] := by
  obtain ⟨ts, hholds, -, -, hbody⟩ := holdsModule_of_parse hast.toCleared h
  have hgood : Good (lexerPair source False ast ast (Nat.le_refl _)) noNode []
      (some (parserStart source ast error uninit)) (parserStart source ast error uninit) :=
    good_parserStart hast hast uninit uninit False.elim
  have hroom := (parse_follows hgood h).1
  have hshape := ne_module_of_wellShaped (hbody.wellShaped trivial trivial).1
  have hnamed := (hbody.allNamed (S := SourceString.IsSlice)
    (fun t ht htype => isSlice_of_mem_resultsOf ht htype) allNamed_nil).1
  -- every node but the root has a kind that the grammar gave it
  have hkind : ∀ i ∈ (Forest.tree 0 (ids ts)).labels, (p.ast.nodes i).type ≠ .astModule →
      (p.ast.nodes i).kind ≠ .module ∧ (p.ast.nodes i).kind.Named SourceString.IsSlice := by
    intro i hi htype
    have hmem := kind_mem_of_holds hholds hi fun heq => htype (heq ▸ hroom.type)
    exact ⟨hshape _ hmem, hnamed _ hmem⟩
  refine ⟨ts, ⟨hholds.root, hroom.type, ⟨_, rfl⟩, hholds.links, hholds.nodup,
    fun i hi => hholds.mem_iff.mp hi, fun i hi heq => hholds.null_notMem (heq ▸ hi), ?_, ?_⟩,
    hholds, hbody⟩
  · intro i hi htype
    exact value_of_symref htype (hkind i hi (by rw [htype]; decide)).1
  · intro i hi htype
    have hne : (p.ast.nodes i).type ≠ .astModule := fun heq => by
      rw [heq] at htype
      cases htype
    exact name_of_kind htype (hkind i hi hne).1 (hkind i hi hne).2

/-- A parse that succeeds leaves a module in the arena. -/
theorem isModule_of_parse {source : Source} {ast : Ast} {error : ErrorData} {uninit : NodeId}
    {fuel : Nat} {p : Parser Lexer} (hast : ast.Blank)
    (h : parse fuel (parserStart source ast error uninit) = some (.ok (), p)) :
    ∃ f, p.ast.IsModule f := by
  obtain ⟨ts, hmod, -⟩ := module_of_parse hast h
  exact ⟨_, hmod⟩

/-- In a tree with few nodes the declarations fit. -/
theorem symbolsFit_of_nodeCount_le {a : Ast} {f : Forest Nat} {limit : Nat} (hmod : a.IsModule f)
    (hle : a.nodeCount ≤ limit) : a.SymbolsFit f limit := by
  intro n hn ds hnd hds
  obtain ⟨cs, rfl⟩ := hmod.tree
  have hsub : ds ⊆ List.range a.nodeCount := by
    intro d hd
    rw [List.mem_range]
    rcases hds d hd with hvisible | ⟨rfl, -⟩
    · exact hmod.lt d (mem_of_visible hvisible)
    · exact hmod.lt d hn
  have hlen := (List.Nodup.subperm hnd hsub).length_le
  rw [List.length_range] at hlen
  omega

/-- The resolution of symbols is lexical scoping. The run ends, it succeeds exactly when the tree is
scoped, and then every symbol refers to the one visible declaration of its name. -/
theorem resolveSymbols_scoped_iff {a : Ast} {f : Forest Nat} {error : ErrorData} {fuel : Nat}
    (hmod : a.IsModule f) (hfits : a.SymbolsFit f maxSymbols) (hfuel : a.nodeCount < fuel) :
    ∃ result r, resolveSymbols fuel ⟨a, [], error⟩ = some (result, r) ∧
      (result = .ok () ↔ a.Scoped f) ∧
      (result = .ok () → ∀ n ∈ f.labels, (a.nodes n).type = .astSymref →
        a.RefersTo f n (r.ast.nodes n)) := by
  obtain ⟨cs, rfl⟩ := hmod.tree
  have hbound : cs.size + 1 < fuel := by
    have := size_lt_nodeCount hmod
    omega
  have hrun := (resolveSymbols_decides (e := error) hmod hbound (functions_fit hmod hfits)
    fun v hv => room_of_fits hmod hfits hv).iff (scoped_iff hmod)
  cases hrun with
  | error hrun hscoped =>
      refine ⟨_, _, hrun, iff_of_false ?_ hscoped, ?_⟩
      all_goals
        intro h
        cases h
  | ok hrun hscoped hwalked =>
      refine ⟨_, _, hrun, iff_of_true rfl hscoped, fun _ n hn htype => ?_⟩
      have hne : n ≠ 0 := by
        rintro rfl
        rw [hmod.type] at htype
        cases htype
      obtain ⟨env, hv⟩ := exists_visit hn hne
      obtain ⟨d, hd, hsame, hunique, hnode⟩ := hwalked.refs _ hv htype
      obtain ⟨ref, name, hvalue⟩ := hmod.symref n hn htype
      -- the declaration was on the stack, so it is visible, and no other one has its name
      have hvisible := (mem_stack_iff hmod hv).mp hd
      refine ⟨d, ?_, hmod.ne_null d (mem_of_visible hvisible), hvisible, hsame,
        fun d' hd' hsame' => hunique d' ((mem_stack_iff hmod hv).mpr hd') hsame'⟩
      rw [hnode, setReference_value hvalue, hvalue]
      rfl

/-- The source `let b = 1 if b then let c = b end return b`. -/
def nestedSource : Source :=
  ⟨"let b = 1 if b then let c = b end return b".toList, by decide⟩

/-- The parse of a source, and the resolution of its symbols. -/
def resolvesOn (source : Source) : Bool :=
  match parse 20 (startOn source) with
  | some (.ok _, p) => succeeds (resolveSymbols 17) ⟨p.ast, [], p.error⟩
  | _ => false

theorem resolveSymbols_nestedSource :
    ∃ p f r, parse 20 (startOn nestedSource) = some (.ok (), p) ∧ p.ast.IsModule f ∧
      resolveSymbols 17 ⟨p.ast, [], p.error⟩ = some (.ok (), r) ∧ p.ast.Scoped f ∧
      ∀ n ∈ f.labels, (p.ast.nodes n).type = .astSymref → p.ast.RefersTo f n (r.ast.nodes n) := by
  have hrun : resolvesOn nestedSource = true := by decide +kernel
  unfold resolvesOn at hrun
  split at hrun
  · rename_i p hparse
    obtain ⟨f, hmod⟩ := isModule_of_parse (blank_astInit _ (by decide)) hparse
    have hcount : p.ast.nodeCount ≤ 16 := (staysWithin (blank_astInit _ (by decide)) _ _ hparse).1
    have hfits : p.ast.SymbolsFit f maxSymbols :=
      symbolsFit_of_nodeCount_le hmod (hcount.trans (by decide))
    obtain ⟨_, r, hok⟩ := succeeds_eq_true.mp hrun
    obtain ⟨_, _, hresolve, hscoped, hrefers⟩ := resolveSymbols_scoped_iff hmod hfits
      (Nat.lt_succ_of_le hcount)
    cases hok.symm.trans hresolve
    exact ⟨p, f, r, hparse, hmod, hok, hscoped.mp rfl, hrefers rfl⟩
  · cases hrun

end Nucleus.Proofs
