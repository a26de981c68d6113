import Nucleus.Proofs.Frames
import Nucleus.Proofs.Fuel
import Nucleus.Proofs.Reuse
import Nucleus.Proofs.Visibility

/-!
# `Nucleus.Proofs.Initialisers`: the scope of a variable and its initialiser

`nulang__resolve_symbols_scoped` defines the name of a variable before it walks over the children
of the declaration, and these are its initialiser. So the variable is visible there
(`visible_of_above`), and a symbol with its name refers to it.

`compile_initialisers_iff` says when no variable of a compiled source is used in its own
initialiser. The source `let x = x` compiles, and its symbol refers to its own declaration.
-/

set_option autoImplicit false

namespace Nucleus.Lang

open Nucleus.Lib

/-- `node.value.symref.node`. -/
def NodeValue.reference : NodeValue → Option NodeId
  | .symref node _ => some node
  | _ => none

/-- The symbol `n` stands in the initialiser of the variable `v`. -/
structure Ast.InInitialiser (ast : Ast) (f : Forest Nat) (v n : NodeId) : Prop where
  vardecl : (ast.nodes v).type = .astVardecl
  symref : (ast.nodes n).type = .astSymref
  above : f.Above v n

/-- No symbol in the initialiser of a variable refers to the variable. -/
def Ast.InitialisersOutside (ast : Ast) (f : Forest Nat) : Prop :=
  ∀ v n, ast.InInitialiser f v n → (ast.nodes n).value.reference ≠ some v

end Nucleus.Lang

namespace Nucleus.Proofs

open Nucleus.Lib
open Nucleus.Lib.Prog
open Nucleus.Lang
open Nucleus.Spec
open Nucleus.Vm (TableManager)

section
variable {a : Ast} {cs : Forest Nat} {r : SymbolResolver} {e : ErrorData} {fuel : Nat}
  {v n : NodeId}

/-- A variable is visible below its declaration. -/
theorem visible_of_above (hmod : a.IsModule (.tree 0 cs)) (hlocal : a.IsLocal v)
    (habove : (Forest.tree 0 cs).Above v n) : a.Visible (.tree 0 cs) v n := by
  have hv := ne_root_of_isLocal hmod hlocal
  have hmem := habove.left_mem
  rw [Forest.labels_tree] at hmem
  have hroot : (Forest.tree 0 cs).Above 0 v := Or.inl ⟨rfl, List.mem_of_ne_of_mem hv hmem⟩
  have hscope : a.IsScope 0 := Or.inr (Or.inr hmod.root.symm)
  obtain ⟨s, hs⟩ := Forest.exists_nearest hmod.nodup ⟨0, hscope, hroot⟩
  exact Or.inr ⟨hlocal, habove.before, s, hs, hs.above.trans hmod.nodup habove⟩

/-- After a resolution that succeeds, a symbol in the initialiser of a variable refers to the
variable exactly when it has its name. -/
theorem reference_iff (hmod : a.IsModule (.tree 0 cs))
    (hrun : resolveSymbols fuel ⟨a, [], e⟩ = some (.ok (), r))
    (hinit : a.InInitialiser (.tree 0 cs) v n) :
    (r.ast.nodes n).value.reference = some v ↔ a.SameName v n := by
  have hbound : cs.size + 1 < fuel + a.nodeCount + 1 := by
    have hsize := size_lt_nodeCount hmod
    omega
  have hwalked := ((resolveSymbols_gated (e := e) hmod hbound).of_ok
    (le_resolveSymbols (by omega) _ _ hrun)).2
  have hn := hinit.above.right_mem
  have hne : n ≠ 0 := by
    rintro rfl
    have htype := hmod.type.symm.trans hinit.symref
    cases htype
  obtain ⟨env, hvisit⟩ := exists_visit hn hne
  obtain ⟨d, hd, hsame, hunique, hnode⟩ := hwalked.refs _ hvisit hinit.symref
  obtain ⟨ref, name, hvalue⟩ := hmod.symref n hn hinit.symref
  -- a declaration is defined before its initialiser is walked over
  have hmem : v ∈ env := (mem_stack_iff hmod hvisit).mpr
    (visible_of_above hmod (Or.inl hinit.vardecl) hinit.above)
  have hreference : (r.ast.nodes n).value.reference = some d := by
    rw [hnode, setReference_value hvalue]
    rfl
  rw [hreference, Option.some.injEq]
  constructor
  · rintro rfl
    exact hsame
  · intro hv
    exact (hunique v hmem hv).symm

end

/-- What a call of `nulang_compile` that succeeds has done. -/
theorem compile_success {vm : TableManager} {fuel : Nat} {uninit : NodeId} {c d : Compiler}
    {source : Source} (hrun : compile vm fuel uninit c source = some (.success, d)) :
    ∃ p r s, parse fuel (compilerStart c source uninit) = some (.ok (), p) ∧
      resolveSymbols fuel ⟨p.ast, [], p.error⟩ = some (.ok (), r) ∧
      resolveArchetypes vm fuel ⟨r.ast, r.error⟩ = some (.ok (), s) ∧ d.ast = s.ast := by
  rw [compile_eq] at hrun
  rcases hparse : parse fuel (compilerStart c source uninit) with _ | ⟨e | ⟨⟩, p⟩
  · rw [hparse] at hrun
    cases hrun
  · rw [hparse] at hrun
    cases hrun
  · rw [hparse] at hrun
    obtain ⟨⟨result, ast, errorData⟩, hanalyze, hd⟩ := Option.map_eq_some_iff.mp hrun
    -- only a success of both passes is a success of the compiler
    have hok : result = .ok () ∧ d.ast = ast := by
      cases result with
      | error e => cases hd
      | ok _ =>
          cases hd
          exact ⟨rfl, rfl⟩
    obtain ⟨rfl, hast⟩ := hok
    unfold analyze at hanalyze
    rcases hsymbols : resolveSymbols fuel ⟨p.ast, [], p.error⟩ with _ | ⟨e | ⟨⟩, r⟩
    · rw [hsymbols] at hanalyze
      cases hanalyze
    · rw [hsymbols] at hanalyze
      cases hanalyze
    · rw [hsymbols] at hanalyze
      rcases harchetypes : resolveArchetypes vm fuel ⟨r.ast, r.error⟩ with _ | ⟨result, s⟩
      · simp only [harchetypes] at hanalyze
        cases hanalyze
      · simp only [harchetypes] at hanalyze
        cases hanalyze
        exact ⟨p, r, s, rfl, hsymbols, harchetypes, hast⟩

/-- The reference does not depend on the handle. -/
theorem reference_eraseArchetype (n : Node) :
    n.eraseArchetype.value.reference = n.value.reference := by
  obtain ⟨type, value⟩ := n
  cases value <;> rfl

/-- A source that compiles gives a module, and in the initialiser of a variable exactly the symbols
with its name refer to it. -/
theorem compile_module {K : UInt32} (hK : 0 < K.toNat) {c d : Compiler} (hc : Used K c)
    {vm : TableManager} {fuel : Nat} {uninit : NodeId} {source : Source}
    (hrun : compile vm fuel uninit c source = some (.success, d)) :
    ∃ f, d.ast.IsModule f ∧ ∀ v n, d.ast.InInitialiser f v n →
      ((d.ast.nodes n).value.reference = some v ↔ d.ast.SameName v n) := by
  obtain ⟨p, r, s, hparse, hsymbols, harchetypes, hast⟩ := compile_success hrun
  obtain ⟨f, hmod⟩ := isModule_of_parse (InOrder.blank (inOrder_of_used hK hc) hK) hparse
  obtain ⟨cs, rfl⟩ := hmod.tree
  -- the passes change references and archetypes only
  have hreferences : mapNodes (setReference 0) r.ast = mapNodes (setReference 0) p.ast :=
    keeps_resolveSymbols fuel _ _ _ hsymbols
  have herased : mapNodes Node.eraseArchetype d.ast = mapNodes Node.eraseArchetype r.ast :=
    hast ▸ keeps_resolveArchetypes fuel _ _ _ harchetypes
  have hskeleton : ∀ i, skeleton (d.ast.nodes i) = skeleton (p.ast.nodes i) := by
    intro i
    calc skeleton (d.ast.nodes i)
        = setReference 0 (d.ast.nodes i).eraseArchetype := skeleton_eq _
      _ = setReference 0 (r.ast.nodes i).eraseArchetype := by rw [nodes_of_mapNodes herased]
      _ = skeleton (r.ast.nodes i) := (skeleton_eq _).symm
      _ = skeleton (p.ast.nodes i) := by
          rw [skeleton, nodes_of_mapNodes hreferences, skeleton]
  have htype : ∀ i, (d.ast.nodes i).type = (p.ast.nodes i).type := fun i => by
    rw [← skeleton_type, hskeleton, skeleton_type]
  have hsame : ∀ v n, d.ast.SameName v n ↔ p.ast.SameName v n := fun v n => by
    unfold Ast.SameName
    rw [← skeleton_name, ← skeleton_name (d.ast.nodes n), hskeleton, hskeleton, skeleton_name,
      skeleton_name]
  have hreference : ∀ i, (d.ast.nodes i).value.reference = (r.ast.nodes i).value.reference :=
    fun i => by
      rw [← reference_eraseArchetype, nodes_of_mapNodes herased, reference_eraseArchetype]
  refine ⟨.tree 0 cs, isModule_of_skeleton hmod ?_ ?_ hskeleton, fun v n hinit => ?_⟩
  · exact (root_of_mapNodes herased).trans (root_of_mapNodes hreferences)
  · exact (nodeCount_of_mapNodes herased).trans (nodeCount_of_mapNodes hreferences)
  · rw [hreference, hsame]
    exact reference_iff hmod hsymbols
      ⟨htype v ▸ hinit.vardecl, htype n ▸ hinit.symref, hinit.above⟩

/-- A source that compiles uses no variable in its own initialiser exactly when no symbol in the
initialiser of a variable has the name of the variable. -/
theorem compile_initialisers_iff {K : UInt32} (hK : 0 < K.toNat) {c d : Compiler} (hc : Used K c)
    {vm : TableManager} {fuel : Nat} {uninit : NodeId} {source : Source}
    (hrun : compile vm fuel uninit c source = some (.success, d)) :
    ∃ f, d.ast.IsModule f ∧
      (d.ast.InitialisersOutside f ↔
        ∀ v n, d.ast.InInitialiser f v n → ¬ d.ast.SameName v n) := by
  obtain ⟨f, hmod, hiff⟩ := compile_module hK hc hrun
  refine ⟨f, hmod, ?_, ?_⟩
  · exact fun houtside v n hinit hname => houtside v n hinit ((hiff v n hinit).mpr hname)
  · exact fun hnames v n hinit href => hnames v n hinit ((hiff v n hinit).mp href)

/-- The tree of a source that a fresh compiler compiles. -/
def compiledOn (source : Source) : Option Ast :=
  match compile emptyTables 20 0 freshCompiler source with
  | some (.success, d) => some d.ast
  | _ => none

/-- A compilation that was run has its error data. -/
theorem exists_of_compiledOn {source : Source} {a : Ast} (h : compiledOn source = some a) :
    ∃ d, compile emptyTables 20 0 freshCompiler source = some (.success, d) ∧ d.ast = a := by
  unfold compiledOn at h
  split at h
  · rename_i d hrun
    cases h
    exact ⟨d, hrun, rfl⟩
  · cases h

/-- A compiler fresh from its allocation may be used. -/
theorem used_freshCompiler : Used 16 freshCompiler := .init _ _ _

/-- The source `let y = 1 let x = y`. -/
def outerSource : Source := ⟨"let y = 1 let x = y".toList, by decide⟩

/-- `outerSource` compiles, so the theorem is about a real run. -/
theorem compile_initialisers_outerSource :
    ∃ d, compile emptyTables 20 0 freshCompiler outerSource = some (.success, d) ∧
      ∃ f, d.ast.IsModule f ∧
        (d.ast.InitialisersOutside f ↔
          ∀ v n, d.ast.InInitialiser f v n → ¬ d.ast.SameName v n) := by
  have hsome : (compiledOn outerSource).isSome = true := by decide +kernel
  obtain ⟨a, ha⟩ := Option.isSome_iff_exists.mp hsome
  obtain ⟨d, hrun, -⟩ := exists_of_compiledOn ha
  exact ⟨d, hrun, compile_initialisers_iff (by decide) used_freshCompiler hrun⟩

/-- The source `let x = x`. -/
def selfSource : Source := ⟨"let x = x".toList, by decide⟩

/-- It compiles, and its symbol refers to the variable that it initialises. -/
theorem compile_selfSource :
    ∃ d f, compile emptyTables 20 0 freshCompiler selfSource = some (.success, d) ∧
      d.ast.IsModule f ∧ ¬ d.ast.InitialisersOutside f := by
  have hnodes : (compiledOn selfSource).map (fun a => ((a.nodes 2).type, (a.nodes 1).type,
      (a.nodes 1).value.reference, a.nodeCount, a.forestAt 3 0)) =
        some (.astVardecl, .astSymref, some 2, 3, .tree 0 (.tree 2 (.leaf 1))) := by
    decide +kernel
  obtain ⟨a, ha, hfacts⟩ := Option.map_eq_some_iff.mp hnodes
  obtain ⟨d, hrun, rfl⟩ := exists_of_compiledOn ha
  simp only [Prod.mk.injEq] at hfacts
  obtain ⟨hvardecl, hsymref, href, hcount, hforest⟩ := hfacts
  obtain ⟨f, hmod, -⟩ := compile_module (by decide) used_freshCompiler hrun
  have hshape : f = .tree 0 (.tree 2 (.leaf 1)) := by
    obtain ⟨cs, rfl⟩ := hmod.tree
    have hsize := size_lt_nodeCount hmod
    rw [hcount] at hsize
    rw [← hforest, ← Ast.forestAt_eq hmod.links (fun h => hmod.ne_null _ h rfl) hsize]
    rfl
  refine ⟨d, f, hrun, hmod, fun houtside => houtside 2 1 ⟨hvardecl, hsymref, ?_⟩ href⟩
  rw [hshape]
  exact Or.inr (Or.inl (Or.inl ⟨rfl, List.mem_singleton.mpr rfl⟩))

end Nucleus.Proofs
