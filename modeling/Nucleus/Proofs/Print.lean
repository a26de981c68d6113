import Nucleus.Proofs.Initialisers
import Nucleus.Spec.Diagnostics

/-!
# `Nucleus.Proofs.Print`: the printed tree

`nulang__print_node` calls itself for the first child and for the next sibling of a node, over the
links of the arena. On an arena that holds a forest it comes to an end and prints one line for each
node of it (`printNode_holds`). The tree of every successful compilation is printed in this way,
with each allocated node in it once (`printAst_outline`).
-/

set_option autoImplicit false

namespace Nucleus.Proofs

open Nucleus.Lib
open Nucleus.Lang
open Nucleus.Spec
open Nucleus.Vm (TableManager)

/-- The recursion over the links is one over the forest that they hold. By induction on it. -/
theorem printNode_holds {a : Ast} (formatFix : Int32 → List Char) {f : Forest NodeId} :
    ∀ {p : NodeId} {n : Nat} (depth : UInt16), Links.Holds nodeNull a.links p nodeNull f →
    nodeNull ∉ f.labels → f.size ≤ n →
    (if f.firstId nodeNull ≠ nodeNull then printNode formatFix a n depth (f.firstId nodeNull)
      else some []) =
      some (outline (fun depth id => printLine formatFix depth id (a.nodes id)) depth f) := by
  induction f with
  | nil =>
      intro p n depth _ _ _
      exact if_neg (fun h => h rfl)
  | cons id cs next ihc ihn =>
      intro p n depth hholds hnull hsize
      obtain ⟨hnode, hchildren, hnext⟩ := Links.holds_cons.mp hholds
      rw [Forest.labels_cons, List.mem_cons, List.mem_append, not_or, not_or] at hnull
      obtain ⟨hid, hnullc, hnulln⟩ := hnull
      rw [Forest.size_cons] at hsize
      obtain ⟨n, rfl⟩ : ∃ m, n = m + 1 := ⟨n - 1, by omega⟩
      -- the links of the node lead to its first child and to its next sibling
      have hfirst : (a.nodes id).firstChild = cs.firstId nodeNull := congrArg Links.firstChild hnode
      have hsibling : (a.nodes id).nextSibling = next.firstId nodeNull :=
        congrArg Links.nextSibling hnode
      have hc := ihc (n := n) (depth + 1) hchildren hnullc (by omega)
      have hn := ihn (n := n) depth hnext hnulln (by omega)
      rw [Forest.firstId_cons, if_pos (Ne.symm hid), printNode]
      rw [hfirst, hsibling, hc, hn]
      rfl

section
variable {K : UInt32} {c d : Compiler} {vm : TableManager} {fuel : Nat} {uninit : NodeId}
  {source : Source}

/-- A successful call leaves the arena of one module, in which every allocated node is. -/
theorem isModule_of_compile (hK : 0 < K.toNat) (hc : Used K c)
    (hrun : compile vm fuel uninit c source = some (.success, d)) :
    ∃ f, d.ast.IsModule f ∧ f.labels.Perm (List.range d.ast.nodeCount) := by
  obtain ⟨p, r, s, hparse, hsymbols, harchetypes, hast⟩ := compile_success hrun
  obtain ⟨ts, hmod, hholds, -⟩ := module_of_parse (InOrder.blank (inOrder_of_used hK hc) hK) hparse
  -- the passes change references and archetypes only
  have hreferences : mapNodes (setReference 0) r.ast = mapNodes (setReference 0) p.ast :=
    keeps_resolveSymbols fuel _ _ _ hsymbols
  have herased : mapNodes Node.eraseArchetype d.ast = mapNodes Node.eraseArchetype r.ast :=
    hast ▸ keeps_resolveArchetypes fuel _ _ _ harchetypes
  have hskeleton : ∀ i, skeleton (d.ast.nodes i) = skeleton (p.ast.nodes i) := by
    intro i
    calc skeleton (d.ast.nodes i)
        = setReference 0 (d.ast.nodes i).eraseArchetype := skeleton_eq _
      _ = setReference 0 (r.ast.nodes i).eraseArchetype := by rw [nodes_of_mapNodes herased]
      _ = skeleton (r.ast.nodes i) := (skeleton_eq _).symm
      _ = skeleton (p.ast.nodes i) := by
          rw [skeleton, nodes_of_mapNodes hreferences, skeleton]
  have hcount : d.ast.nodeCount = p.ast.nodeCount :=
    (nodeCount_of_mapNodes herased).trans (nodeCount_of_mapNodes hreferences)
  refine ⟨_, isModule_of_skeleton hmod ?_ hcount hskeleton, ?_⟩
  · exact (root_of_mapNodes herased).trans (root_of_mapNodes hreferences)
  · rw [hcount, Forest.labels_tree]
    exact hholds.perm

/-- `nulang_print_ast` after a successful call comes to an end, and prints one line for each
allocated node, in the order of the source and under its depth in the tree. -/
theorem printAst_outline (formatFix : Int32 → List Char) (hK : 0 < K.toNat) (hc : Used K c)
    (hrun : compile vm fuel uninit c source = some (.success, d)) :
    ∃ f, d.ast.IsModule f ∧ f.labels.Perm (List.range d.ast.nodeCount) ∧
      ∀ n, d.ast.nodeCount ≤ n → printAst formatFix n d = some ("==== AST ====\n".toList ++
        outline (fun depth id => printLine formatFix depth id (d.ast.nodes id)) 0 f) := by
  obtain ⟨f, hmod, hperm⟩ := isModule_of_compile hK hc hrun
  refine ⟨f, hmod, hperm, fun n hn => ?_⟩
  have hnull : nodeNull ∉ f.labels := fun hmem => hmod.ne_null _ hmem rfl
  have hsize : f.size ≤ n := by
    rw [← Forest.length_labels, hperm.length_eq, List.length_range]
    exact hn
  have hprint := printNode_holds formatFix (n := n) 0 hmod.links hnull hsize
  obtain ⟨cs, rfl⟩ := hmod.tree
  rw [printAst, hmod.root]
  rw [Forest.firstId_tree, if_pos (by decide)] at hprint
  rw [hprint]
  rfl

/-- `outerSource` compiles, so the theorem is about a real tree. -/
theorem printAst_outline_outerSource :
    ∃ d, compile emptyTables 20 0 freshCompiler outerSource = some (.success, d) ∧
      ∃ f, d.ast.IsModule f ∧ f.labels.Perm (List.range d.ast.nodeCount) ∧
        ∀ n, d.ast.nodeCount ≤ n → printAst (fun _ => []) n d = some ("==== AST ====\n".toList ++
          outline (fun depth id => printLine (fun _ => []) depth id (d.ast.nodes id)) 0 f) := by
  have hsome : (compiledOn outerSource).isSome = true := by decide +kernel
  obtain ⟨a, ha⟩ := Option.isSome_iff_exists.mp hsome
  obtain ⟨d, hrun, -⟩ := exists_of_compiledOn ha
  exact ⟨d, hrun, printAst_outline (fun _ => []) (by decide) used_freshCompiler hrun⟩

end

end Nucleus.Proofs
