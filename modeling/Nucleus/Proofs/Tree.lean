import Nucleus.Proofs.Lexing
import Nucleus.Proofs.Shapes

/-!
# `Nucleus.Proofs.Tree`: the arena after a run of `nulang__parse`

The arena stores the syntax of the derivation (`Ast.HoldsModule.syntaxOf`), and a run that
succeeds leaves a tree in it: every node is reached from the root by one
path, and the children of a node are the nodes whose parent it is (`parse_isTree`). And the
children of every node are those that its type calls for (`parse_wellShaped`).
-/

set_option autoImplicit false

namespace Nucleus.Lang

open Nucleus.Lib
open Nucleus.Spec

/-- The allocated nodes of the arena are one tree below the root. -/
structure Ast.IsTree (a : Ast) : Prop where
  capacity : a.nodeCount ≤ a.nodeCapacity.toNat
  /-- Every path from the root ends at an allocated node. -/
  closed : ∀ path i, Links.walk nodeNull a.links a.root path = some i → i < a.nodeCount
  /-- Every allocated node is the end of one path. -/
  path : ∀ i < a.nodeCount, ∃! path, Links.walk nodeNull a.links a.root path = some i
  /-- The sibling chain from the first child visits each child once, and ends at the last
  child. -/
  children : ∀ p < a.nodeCount, ∃ cs, IsChain nodeNull a.nextSibling (a.nodes p).firstChild cs ∧
    cs.Nodup ∧ (∀ i < a.nodeCount, i ∈ cs ↔ (a.nodes i).parent = p) ∧
    (a.nodes p).lastChild = cs.getLastD nodeNull
  last : ∀ p < a.nodeCount, (a.nodes p).lastChild ≠ nodeNull →
    (a.nodes (a.nodes p).lastChild).nextSibling = nodeNull
  empty : ∀ p < a.nodeCount,
    (a.nodes p).firstChild = nodeNull ↔ (a.nodes p).lastChild = nodeNull
  root : (a.nodes a.root).parent = nodeNull
  /-- Every assertion of `nulang__append_child` held. -/
  asserts : a.asserts = true

/-- The forest of all ids. -/
theorem Ast.HoldsModule.nodup {a : Ast} {ts : Located} (h : a.HoldsModule ts) :
    (Forest.tree 0 (ids ts)).labels.Nodup := by
  rw [Forest.labels_tree]
  exact h.perm.nodup_iff.mpr List.nodup_range

/-- The nodes of the tree are the allocated ones. -/
theorem Ast.HoldsModule.mem_iff {a : Ast} {ts : Located} (h : a.HoldsModule ts) {i : Nat} :
    i ∈ (Forest.tree 0 (ids ts)).labels ↔ i < a.nodeCount := by
  rw [Forest.labels_tree, h.perm.mem_iff, List.mem_range]

/-- The null id is no node of the tree. -/
theorem Ast.HoldsModule.null_notMem {a : Ast} {ts : Located} (h : a.HoldsModule ts) :
    nodeNull ∉ (Forest.tree 0 (ids ts)).labels :=
  fun hmem => h.valid.ne_null (h.mem_iff.mp hmem) rfl

/-- An arena that holds a module is a tree. -/
theorem Ast.HoldsModule.isTree {a : Ast} {ts : Located} (h : a.HoldsModule ts) : a.IsTree := by
  have hchain : ∀ p < a.nodeCount, ∃ cs,
      IsChain nodeNull a.nextSibling (a.nodes p).firstChild cs ∧ cs.Nodup ∧
      (∀ i < a.nodeCount, i ∈ cs ↔ (a.nodes i).parent = p) ∧
      (a.nodes p).lastChild = cs.getLastD nodeNull := by
    intro p hp
    obtain ⟨cs, hsub⟩ := Forest.exists_isSubtree (h.mem_iff.mpr hp)
    obtain ⟨hchain, hlast⟩ := h.links.children hsub h.null_notMem
    refine ⟨cs.roots, hchain, hsub.nodup_roots h.nodup, fun i hi => ?_, hlast⟩
    exact (h.links.parent_eq_iff h.nodup h.null_notMem hsub (h.mem_iff.mpr hi)).symm
  refine ⟨h.valid.le, fun path i hw => ?_, fun i hi => ?_, hchain, fun p hp hne => ?_,
    fun p hp => ?_, ?_, h.asserts⟩
  · rw [h.root] at hw
    exact h.mem_iff.mp (h.links.mem_of_walk hw)
  · rw [h.root]
    exact h.links.existsUnique_path h.nodup h.null_notMem (h.mem_iff.mpr hi)
  · obtain ⟨cs, hcs, -, -, hlast⟩ := hchain p hp
    rw [hlast] at hne ⊢
    refine hcs.getLastD ?_
    rintro rfl
    exact hne rfl
  · obtain ⟨cs, hcs, hnd, hmem, hlast⟩ := hchain p hp
    rw [hlast]
    cases cs with
    | nil => exact ⟨fun _ => rfl, fun _ => hcs⟩
    | cons c cs =>
        obtain ⟨hfirst, hne, -⟩ := hcs
        refine ⟨fun hnull => absurd hnull hne, fun hnull => ?_⟩
        -- the last child is an allocated node
        obtain ⟨ds, hsub⟩ := Forest.exists_isSubtree (h.mem_iff.mpr hp)
        obtain ⟨-, hlast', hholds⟩ := h.links.subtree hsub
        have hfirst' := (h.links.subtree hsub).1
        cases ds with
        | nil => exact absurd hfirst' hne
        | cons d es rest =>
            have hroot := Forest.lastId_mem (f := .cons d es rest) (by simp) nodeNull
            rw [← hlast'] at hroot
            have hlabel := hsub.subset _ (List.mem_cons_of_mem _
              (Forest.mem_labels_of_mem_roots hroot))
            rw [show (a.links p).lastChild = (a.nodes p).lastChild from rfl, hlast, hnull] at hlabel
            exact absurd hlabel h.null_notMem
  · rw [h.root]
    exact congrArg Links.parent (Links.holds_tree.mp h.links).1

/-! ### The stored syntax -/

/-- The stored kinds of owned nodes are their syntax. -/
theorem map_kind_ids {a : Ast} {t : Located} (hkinds : ∀ x ∈ t.labels, (a.nodes x.1).kind = x.2) :
    (ids t).map (fun id => (a.nodes id).kind) = syn t := by
  induction t with
  | nil => rfl
  | cons x cs next ihc ihn =>
      rw [ids_cons, Forest.map_cons, syn_cons, hkinds x (by simp),
        ihc fun y hy => hkinds y (by simp [hy]), ihn fun y hy => hkinds y (by simp [hy])]

/-- The syntax at the root of a forest that the arena stores. -/
theorem Ast.syntaxAt_eq {a : Ast} {t : Located} {p : NodeId}
    (hkinds : ∀ x ∈ t.labels, (a.nodes x.1).kind = x.2)
    (hholds : Links.Holds nodeNull a.links p nodeNull (ids t)) (hnull : nodeNull ∉ (ids t).labels)
    (hsize : t.size ≤ a.nodeCount) : a.syntaxAt ((ids t).firstId nodeNull) = syn t := by
  unfold Ast.syntaxAt
  rw [Ast.forestAt_eq hholds hnull (by rwa [ids, Forest.size_map]), map_kind_ids hkinds]

/-- The syntax below the root of an arena that holds a module. -/
theorem Ast.HoldsModule.syntaxOf {a : Ast} {ts : Located} (h : a.HoldsModule ts) :
    a.syntaxOf = syn ts := by
  obtain ⟨hroot, hholds⟩ := Links.holds_tree.mp h.links
  have hfirst : (a.nodes a.root).firstChild = (ids ts).firstId nodeNull := by
    rw [h.root]
    exact congrArg Links.firstChild hroot
  have hsize := h.perm.length_eq
  rw [List.length_cons, length_ids, List.length_range] at hsize
  unfold Ast.syntaxOf
  rw [hfirst]
  refine Ast.syntaxAt_eq h.kinds hholds (fun hmem => h.null_notMem ?_) (by omega)
  rw [Forest.labels_tree]
  exact List.mem_cons_of_mem _ hmem

/-! ### The children of a node -/

/-- A stored node of well-shaped syntax has the type of its kind, which is no module. -/
theorem type_eq_of_wellShaped {a : Ast} {x : NodeId × Kind} {cs next : Located}
    (hkind : (a.nodes x.1).kind = x.2) (hshape : Spec.WellShaped (syn (.cons x cs next))) :
    (a.nodes x.1).type = x.2.type := by
  refine Node.type_of_kind hkind fun hmod => ?_
  have := hshape.1
  rw [hmod] at this
  exact this

/-- The stored types of the top nodes are the types of their kinds. -/
theorem map_type_roots {a : Ast} {ts : Located} (hkinds : ∀ x ∈ ts.labels, (a.nodes x.1).kind = x.2)
    (hshape : Spec.WellShaped (syn ts)) :
    (ids ts).roots.map (fun i => (a.nodes i).type) = rootTypes (syn ts) := by
  induction ts with
  | nil => rfl
  | cons x cs next _ ih =>
      have htype := type_eq_of_wellShaped (hkinds x (by simp)) hshape
      have hnext := ih (fun y hy => hkinds y (by simp [hy])) hshape.2.2
      simp only [ids_cons, Forest.roots_cons, List.map_cons, hnext, htype]
      rfl

/-- A node of well-shaped syntax has in the arena the children that its type calls for. -/
theorem childrenShape_of_isSubtree {a : Ast} {ts : Located}
    (hkinds : ∀ x ∈ ts.labels, (a.nodes x.1).kind = x.2) (hshape : Spec.WellShaped (syn ts))
    {i : Nat} {cs : Forest Nat} (hsub : Forest.IsSubtree i cs (ids ts)) :
    childrenShape (a.nodes i).type (cs.roots.map fun c => (a.nodes c).type) := by
  induction ts with
  | nil => cases hsub
  | cons x es next ihe ihn =>
      have hkc : ∀ y ∈ es.labels, (a.nodes y.1).kind = y.2 := fun y hy => hkinds y (by simp [hy])
      have hkn : ∀ y ∈ next.labels, (a.nodes y.1).kind = y.2 := fun y hy => hkinds y (by simp [hy])
      cases hsub with
      | here =>
          rw [type_eq_of_wellShaped (hkinds x (by simp)) hshape, ← ids,
            map_type_roots hkc hshape.2.1]
          exact hshape.1
      | child hsub => exact ihe hkc hshape.2.1 hsub
      | sibling hsub => exact ihn hkn hshape.2.2 hsub

/-- An arena that holds the statements of a module is well shaped. -/
theorem Ast.HoldsModule.wellShaped {a : Ast} {ts : Located} (h : a.HoldsModule ts)
    (hshape : Spec.WellShaped (syn ts)) (htops : ∀ t ∈ rootTypes (syn ts), t ∈ stmtTypes) :
    a.WellShaped := by
  have hchain : ∀ {i : Nat} {cs : Forest Nat}, Forest.IsSubtree i cs (.tree 0 (ids ts)) →
      IsChain nodeNull a.nextSibling (a.nodes i).firstChild cs.roots := fun hsub =>
    (h.links.children hsub h.null_notMem).1
  refine ⟨⟨(ids ts).roots, ?_, fun i hi => ?_⟩, fun path i hw hne => ?_⟩
  · rw [h.root]
    exact hchain (.here .nil)
  · apply htops
    rw [← map_type_roots h.kinds hshape]
    exact List.mem_map_of_mem hi
  · rw [h.root] at hw hne
    obtain ⟨cs, hsub⟩ := Forest.exists_isSubtree (h.links.mem_of_walk hw)
    refine ⟨cs.roots, hchain hsub, ?_⟩
    cases hsub with
    | here => exact absurd rfl hne
    | child hsub => exact childrenShape_of_isSubtree h.kinds hshape hsub
    | sibling hsub => cases hsub

end Nucleus.Lang

namespace Nucleus.Proofs

open Nucleus.Lib
open Nucleus.Lang
open Nucleus.Spec

/-- The syntax of a tree that was built from new nodes. -/
theorem Builds.syntaxAt {a b : Ast} {id : NodeId} {k : Kind} {cs : Located}
    (h : Builds a b [] (.tree (id, k) cs)) : b.syntaxAt id = .tree k (syn cs) := by
  have hfloats := h.owns.floats
  rw [ids_tree, Links.floats_tree] at hfloats
  have hsize := h.size_eq
  rw [List.length_nil] at hsize
  refine Ast.syntaxAt_eq (t := .tree (id, k) cs) h.owns.kinds hfloats (fun hmem => ?_) (by omega)
  exact h.valid.ne_null (h.owns.bounds _ hmem).2 rfl

/-- The parser's state at the start. -/
theorem at_parserStart (source : Source) (ast : Ast) (error : ErrorData) (uninit : NodeId) :
    At (parserStart source ast error uninit) (resultsOf source) ast :=
  ⟨reads_lexerInit source, rfl⟩

/-- The parser at the start of `source`, with an arena of sixteen nodes in zeroed memory. -/
def startOn (source : Source) : Parser Lexer :=
  parserStart source
    (astInit 16 fun _ => ⟨.astModule, .symref 0 ⟨[], 0⟩, ⟨⟨0, 0, 0⟩, ⟨0, 0, 0⟩⟩, 0, 0, 0, 0⟩)
    ⟨⟨⟨0, 0, 0⟩, ⟨0, 0, 0⟩⟩, .tokenEof, .tokenEof⟩ 0

/-- The source `if a then b = c.d end`. -/
def ifSource : Source :=
  ⟨['i', 'f', ' ', 'a', ' ', 't', 'h', 'e', 'n', ' ', 'b', ' ', '=', ' ', 'c', '.', 'd', ' ',
    'e', 'n', 'd'], by decide⟩

/-- The source `function f(p: int): int return p end let a = f(1)`. -/
def applySource : Source :=
  ⟨"function f(p: int): int return p end let a = f(1)".toList, by decide⟩

/-- The sample source parses. -/
theorem parse_ifSource : ∃ p, parse 12 (startOn ifSource) = some (.ok (), p) := by
  obtain ⟨_, p, h⟩ := Prog.succeeds_eq_true.mp
    (show Prog.succeeds (parse 12) (startOn ifSource) = true by decide +kernel)
  exact ⟨p, h⟩

/-- A run of `nulang__parse` that succeeds has read a module, and the arena holds its syntax. -/
theorem holdsModule_of_parse {source : Source} {ast : Ast} {error : ErrorData} {uninit : NodeId}
    {fuel : Nat} {p : Parser Lexer} (hast : ast.Cleared)
    (h : parse fuel (parserStart source ast error uninit) = some (.ok (), p)) :
    ∃ ts, p.ast.HoldsModule ts ∧ p.ast.nodeCapacity = ast.nodeCapacity ∧
      DerivesModule (resultsOf source) (syn ts) := by
  obtain ⟨ts, b, hat, hholds, hcap, hderives⟩ :=
    parse_spec (at_parserStart source ast error uninit) hast () p h
  rw [← hat.ast] at hholds hcap
  exact ⟨ts, hholds, hcap, hderives⟩

/-- A run of `nulang__parse` that succeeds leaves a tree in the arena. -/
theorem parse_isTree {source : Source} {ast : Ast} {error : ErrorData} {uninit : NodeId}
    {fuel : Nat} {p : Parser Lexer} (hast : ast.Cleared)
    (h : parse fuel (parserStart source ast error uninit) = some (.ok (), p)) : p.ast.IsTree := by
  obtain ⟨ts, hholds, -, -⟩ := holdsModule_of_parse hast h
  exact hholds.isTree

theorem parse_isTree_ifSource :
    ∃ p, parse 12 (startOn ifSource) = some (.ok (), p) ∧ p.ast.IsTree := by
  obtain ⟨p, h⟩ := parse_ifSource
  exact ⟨p, h, parse_isTree (astInit_cleared _ (by decide)) h⟩

/-- A run of `nulang__parse` that succeeds gives every node the children its type calls for. -/
theorem parse_wellShaped {source : Source} {ast : Ast} {error : ErrorData} {uninit : NodeId}
    {fuel : Nat} {p : Parser Lexer} (hast : ast.Cleared)
    (h : parse fuel (parserStart source ast error uninit) = some (.ok (), p)) :
    p.ast.WellShaped := by
  obtain ⟨ts, hholds, -, -, hbody⟩ := holdsModule_of_parse hast h
  obtain ⟨hshape, htops⟩ := hbody.wellShaped trivial trivial
  exact hholds.wellShaped hshape htops

theorem parse_wellShaped_ifSource :
    ∃ p, parse 12 (startOn ifSource) = some (.ok (), p) ∧ p.ast.WellShaped := by
  obtain ⟨p, h⟩ := parse_ifSource
  exact ⟨p, h, parse_wellShaped (astInit_cleared _ (by decide)) h⟩

end Nucleus.Proofs
