import Mathlib.Data.List.Perm.Basic
import Mathlib.Data.List.Range
import Nucleus.Spec.Syntax

/-!
# `Nucleus.Proofs.Arena`: what a run of the parser does to the arena

`Ast.Owns a t`: the arena `a` stores the trees of `t`, with no parent and no sibling, and no
node of `t` is the root. `Builds a b o t`: the way from the arena `a` to the arena `b` took
over the nodes `o`, allocated every id between the two node counts, wrote no other node, and
now owns the trees `t`, which are made of exactly these nodes.

The rules follow the parser's operations: `Builds.call` for a sub-production, `Builds.add` for
a new node, `Builds.relabel` for a change of a node's value, `Builds.append` and
`Builds.appendLast` for `nulang__append_child` to a node without parent and to its last child.
-/

set_option autoImplicit false

namespace Nucleus.Lang

open Nucleus.Lib
open Nucleus.Spec

/-! ### The operations -/

namespace Ast

@[simp] theorem modifyNode_root (a : Ast) (id : NodeId) (f : Node → Node) :
    (a.modifyNode id f).root = a.root := rfl

@[simp] theorem modifyNode_nodeCapacity (a : Ast) (id : NodeId) (f : Node → Node) :
    (a.modifyNode id f).nodeCapacity = a.nodeCapacity := rfl

/-- A change to a node takes no new one. -/
@[simp] theorem modifyNode_nodeCount (a : Ast) (id : NodeId) (f : Node → Node) :
    (a.modifyNode id f).nodeCount = a.nodeCount := rfl

@[simp] theorem modifyNode_asserts (a : Ast) (id : NodeId) (f : Node → Node) :
    (a.modifyNode id f).asserts = a.asserts := rfl

/-- The node that is changed. -/
@[simp] theorem modifyNode_nodes_self (a : Ast) (id : NodeId) (f : Node → Node) :
    (a.modifyNode id f).nodes id = f (a.nodes id) := by simp [modifyNode]

/-- The other nodes stay as they are. -/
theorem modifyNode_nodes_ne (a : Ast) {id i : Nat} (f : Node → Node) (h : i ≠ id) :
    (a.modifyNode id f).nodes i = a.nodes i := by simp [modifyNode, h]

/-- Storing links of a node is an update of the links. -/
theorem links_modifyNode (a : Ast) (id : NodeId) (f : Node → Node) (g : Links → Links)
    (h : ∀ n : Node, (⟨(f n).parent, (f n).firstChild, (f n).lastChild, (f n).nextSibling⟩ : Links)
      = g ⟨n.parent, n.firstChild, n.lastChild, n.nextSibling⟩) :
    (a.modifyNode id f).links = Links.modifyAt a.links id g := by
  funext i
  by_cases hi : i = id
  · subst hi
    simp [links, h]
  · rw [Links.modifyAt_ne _ _ hi]
    simp [links, modifyNode_nodes_ne a f hi]

end Ast

@[simp] theorem appendChild_root (a : Ast) (p c : NodeId) : (appendChild a p c).root = a.root := by
  simp only [appendChild]
  split <;> rfl

@[simp] theorem appendChild_nodeCapacity (a : Ast) (p c : NodeId) :
    (appendChild a p c).nodeCapacity = a.nodeCapacity := by
  simp only [appendChild]
  split <;> rfl

/-- Appending takes no new node. -/
@[simp] theorem appendChild_nodeCount (a : Ast) (p c : NodeId) :
    (appendChild a p c).nodeCount = a.nodeCount := by
  simp only [appendChild]
  split <;> rfl

/-- Appending asserts that both nodes are in the arena and the child is free. -/
theorem appendChild_asserts (a : Ast) (p c : NodeId) :
    (appendChild a p c).asserts = (a.asserts && appendChildAsserts a p c) := by
  simp only [appendChild]

/-- Appending a child attaches it in the links of the arena. -/
theorem links_appendChild (a : Ast) (p c : NodeId) :
    (appendChild a p c).links = Links.attach nodeNull a.links p c := by
  have hparent (b : Ast) := Ast.links_modifyNode b c (fun n => { n with parent := p })
    (fun l => { l with parent := p }) fun _ => rfl
  have hlast (b : Ast) := Ast.links_modifyNode b p (fun n => { n with lastChild := c })
    (fun l => { l with lastChild := c }) fun _ => rfl
  have hnext (b : Ast) (i : NodeId) := Ast.links_modifyNode b i
    (fun n => { n with nextSibling := c }) (fun l => { l with nextSibling := c }) fun _ => rfl
  have honly (b : Ast) := Ast.links_modifyNode b p
    (fun n => { n with firstChild := c, lastChild := c })
    (fun l => { l with firstChild := c, lastChild := c }) fun _ => rfl
  have hlinks : (a.links p).lastChild = (a.nodes p).lastChild := rfl
  simp only [appendChild, Links.attach, hlinks]
  refine (hparent _).trans ?_
  split
  · rw [hlast, hnext]
  · rw [honly]

/-- A change of links keeps the kind of every node. -/
theorem kind_modifyNode (a : Ast) (id i : NodeId) (f : Node → Node)
    (h : ∀ n : Node, (f n).kind = n.kind) :
    ((a.modifyNode id f).nodes i).kind = (a.nodes i).kind := by
  by_cases hi : i = id
  · rw [hi, Ast.modifyNode_nodes_self, h]
  · rw [Ast.modifyNode_nodes_ne a f hi]

/-- Appending changes links only. -/
@[simp] theorem kind_appendChild (a : Ast) (p c i : NodeId) :
    ((appendChild a p c).nodes i).kind = (a.nodes i).kind := by
  simp only [appendChild]
  refine (kind_modifyNode _ c i (fun n => { n with parent := p }) fun _ => rfl).trans ?_
  split
  · refine (kind_modifyNode _ p i (fun n => { n with lastChild := c }) fun _ => rfl).trans ?_
    exact kind_modifyNode _ _ i (fun n => { n with nextSibling := c }) fun _ => rfl
  · exact kind_modifyNode _ p i (fun n => { n with firstChild := c, lastChild := c }) fun _ => rfl

/-- Appending a child writes the parent, the child and the parent's last child only. -/
theorem appendChild_nodes_ne {a : Ast} {p c i : Nat} (hp : i ≠ p) (hc : i ≠ c)
    (hl : i ≠ (a.nodes p).lastChild) : (appendChild a p c).nodes i = a.nodes i := by
  simp only [appendChild]
  refine (Ast.modifyNode_nodes_ne _ (fun n => { n with parent := p }) hc).trans ?_
  split
  · rw [Ast.modifyNode_nodes_ne _ _ hp, Ast.modifyNode_nodes_ne _ _ hl]
  · rw [Ast.modifyNode_nodes_ne _ _ hp]

/-- The arena has a root, and its nodes fit its capacity. -/
structure Ast.Valid (a : Ast) : Prop where
  pos : 0 < a.nodeCount
  le : a.nodeCount ≤ a.nodeCapacity.toNat

/-- The capacity is a 32-bit number, so no allocated id is the null id. -/
theorem Ast.Valid.ne_null {a : Ast} (h : a.Valid) {i : Nat} (hi : i < a.nodeCount) :
    i ≠ nodeNull := by
  have := a.nodeCapacity.toNat_lt
  have := h.le
  unfold nodeNull
  omega

/-- The nodes that the arena can still give out. -/
def Ast.free (a : Ast) : Nat := a.nodeCapacity.toNat - a.nodeCount

/-- Appending leaves the free nodes free. -/
@[simp] theorem free_appendChild (a : Ast) (p c : NodeId) :
    (appendChild a p c).free = a.free := by simp [Ast.free]

/-- A new node takes one of the free nodes. -/
theorem addNode_free {a b : Ast} {id : NodeId} (hadd : addNode a = some (id, b)) :
    b.Valid ∧ a.free = b.free + 1 := by
  unfold addNode at hadd
  split at hadd
  · cases hadd
  · rename_i hfull
    obtain ⟨-, rfl⟩ : a.nodeCount = id ∧ _ = b := by simpa using hadd
    refine ⟨⟨Nat.succ_pos _, ?_⟩, ?_⟩
    · show a.nodeCount + 1 ≤ a.nodeCapacity.toNat
      omega
    · show a.nodeCapacity.toNat - a.nodeCount = a.nodeCapacity.toNat - (a.nodeCount + 1) + 1
      omega

/-- Without a free node there is no new one. -/
theorem free_of_addNode_none {a : Ast} (hadd : addNode a = none) : a.free = 0 := by
  unfold addNode at hadd
  split at hadd
  · unfold Ast.free
    omega
  · cases hadd

/-- The arena stores the trees of `t`, without parents and siblings, on nodes below the root. -/
structure Ast.Owns (a : Ast) (t : Located) : Prop where
  floats : Links.Floats nodeNull a.links (ids t)
  kinds : ∀ x ∈ t.labels, (a.nodes x.1).kind = x.2
  nodup : (ids t).labels.Nodup
  bounds : ∀ i ∈ (ids t).labels, 0 < i ∧ i < a.nodeCount

end Nucleus.Lang

namespace Nucleus.Spec

open Nucleus.Lib
open Nucleus.Lang

/-- The identifier of a node of the tree is one of its identifiers. -/
theorem mem_ids {t : Located} {x : NodeId × Kind} (h : x ∈ t.labels) :
    x.1 ∈ (ids t).labels := by
  induction t with
  | nil => simp at h
  | cons y cs next ihc ihn =>
      simp only [Forest.labels_cons, List.mem_cons, List.mem_append, ids_cons] at h ⊢
      rcases h with rfl | h | h
      · exact Or.inl rfl
      · exact Or.inr (Or.inl (ihc h))
      · exact Or.inr (Or.inr (ihn h))

end Nucleus.Spec

namespace Nucleus.Proofs

open Nucleus.Lib
open Nucleus.Lang
open Nucleus.Spec

/-! ### Owned trees -/

/-- An arena owns two trees when it owns each and they have no node in common. -/
theorem owns_append {a : Ast} {t u : Located} :
    a.Owns (t ++ u) ↔
      a.Owns t ∧ a.Owns u ∧ List.Disjoint (ids t).labels (ids u).labels := by
  constructor
  · rintro ⟨hf, hk, hnd, hb⟩
    rw [ids_append] at hf hnd hb
    rw [Links.floats_append] at hf
    rw [Forest.labels_append] at hnd hb hk
    refine ⟨⟨hf.1, fun x hx => hk x (List.mem_append_left _ hx), hnd.of_append_left,
      fun i hi => hb i (List.mem_append_left _ hi)⟩,
      ⟨hf.2, fun x hx => hk x (List.mem_append_right _ hx), hnd.of_append_right,
        fun i hi => hb i (List.mem_append_right _ hi)⟩, List.disjoint_of_nodup_append hnd⟩
  · rintro ⟨ht, hu, hd⟩
    refine ⟨?_, ?_, ?_, ?_⟩
    · rw [ids_append, Links.floats_append]
      exact ⟨ht.floats, hu.floats⟩
    · intro x hx
      rw [Forest.labels_append] at hx
      rcases List.mem_append.mp hx with hx | hx
      · exact ht.kinds x hx
      · exact hu.kinds x hx
    · rw [ids_append, Forest.labels_append]
      exact ht.nodup.append hu.nodup hd
    · intro i hi
      rw [ids_append, Forest.labels_append] at hi
      rcases List.mem_append.mp hi with hi | hi
      · exact ht.bounds i hi
      · exact hu.bounds i hi

/-- The frame rule: writing other nodes keeps an owned tree. -/
theorem owns_congr {a b : Ast} {t : Located} (h : a.Owns t)
    (hnodes : ∀ i ∈ (ids t).labels, b.nodes i = a.nodes i) (hcount : a.nodeCount ≤ b.nodeCount) :
    b.Owns t := by
  refine ⟨h.floats.congr fun i hi => ?_, fun x hx => ?_, h.nodup, fun i hi => ?_⟩
  · unfold Ast.links
    rw [hnodes i hi]
  · rw [hnodes x.1 (mem_ids hx), h.kinds x hx]
  · have := h.bounds i hi
    exact ⟨this.1, by omega⟩

/-! ### Building -/

/-- The way from `a` to `b` took over the nodes `o` and owns `t` now. -/
structure Builds (a b : Ast) (o : List Nat) (t : Located) : Prop where
  root : b.root = a.root
  capacity : b.nodeCapacity = a.nodeCapacity
  asserts : b.asserts = a.asserts
  count : a.nodeCount ≤ b.nodeCount
  valid : b.Valid
  frame : ∀ i < a.nodeCount, i ∉ o → b.nodes i = a.nodes i
  perm : (ids t).labels.Perm (o ++ List.range' a.nodeCount (b.nodeCount - a.nodeCount))
  owns : b.Owns t

/-- A built node was taken over or is new. -/
theorem Builds.mem_or {a b : Ast} {o : List Nat} {t : Located} (h : Builds a b o t)
    {i : Nat} (hi : i ∈ (ids t).labels) :
    i ∈ o ∨ (a.nodeCount ≤ i ∧ i < b.nodeCount) := by
  rcases List.mem_append.mp (h.perm.mem_iff.mp hi) with hi | hi
  · exact Or.inl hi
  · rw [List.mem_range'_1] at hi
    have := h.count
    exact Or.inr ⟨hi.1, by omega⟩

/-- The number of nodes built. -/
theorem Builds.size_eq {a b : Ast} {o : List Nat} {t : Located} (h : Builds a b o t) :
    t.size = o.length + (b.nodeCount - a.nodeCount) := by
  rw [← length_ids, h.perm.length_eq]
  simp

/-- What an arena owns has been built, from itself. -/
theorem Builds.refl {a : Ast} {t : Located} (hv : a.Valid) (h : a.Owns t) :
    Builds a a (ids t).labels t where
  root := rfl
  capacity := rfl
  asserts := rfl
  count := le_refl _
  valid := hv
  frame := fun _ _ _ => rfl
  perm := by simp
  owns := h

/-- The order of the owned trees does not matter. -/
theorem Builds.comm {a b : Ast} {o : List Nat} {t u : Located} (h : Builds a b o (t ++ u)) :
    Builds a b o (u ++ t) where
  root := h.root
  capacity := h.capacity
  asserts := h.asserts
  count := h.count
  valid := h.valid
  frame := h.frame
  perm := by
    have := h.perm
    rw [ids_append, Forest.labels_append] at this ⊢
    exact List.perm_append_comm.trans this
  owns := by
    obtain ⟨ht, hu, hd⟩ := owns_append.mp h.owns
    exact owns_append.mpr ⟨hu, ht, fun _ hi hi' => hd hi' hi⟩

/-- A step that takes over the trees `t` continues a build that owns them. -/
theorem Builds.trans {a b c : Ast} {o : List Nat} {t t' u : Located}
    (h₁ : Builds a b o (t ++ u)) (h₂ : Builds b c (ids t).labels t') :
    Builds a c o (t' ++ u) := by
  obtain ⟨ht, hu, hd⟩ := owns_append.mp h₁.owns
  have hcount₁ := h₁.count
  have hcount₂ := h₂.count
  -- the second step leaves the nodes behind its tree as they were
  have hkeep : ∀ i ∈ (ids u).labels, c.nodes i = b.nodes i := fun i hi =>
    h₂.frame i (hu.bounds i hi).2 fun h => hd h hi
  refine ⟨h₂.root.trans h₁.root, h₂.capacity.trans h₁.capacity, h₂.asserts.trans h₁.asserts,
    by omega, h₂.valid, ?_, ?_, ?_⟩
  -- outside of both trees neither step changes a node
  · intro i hi ho
    have hit : i ∉ (ids t).labels := by
      intro h
      rcases h₁.mem_or (by rw [ids_append, Forest.labels_append]
                           exact List.mem_append_left _ h) with h | h
      · exact ho h
      · omega
    rw [h₂.frame i (by omega) hit, h₁.frame i hi ho]
  -- the new nodes are those of the first step, and those of the second behind them
  · have hsplit : List.range' a.nodeCount (c.nodeCount - a.nodeCount) =
        List.range' a.nodeCount (b.nodeCount - a.nodeCount) ++
          List.range' b.nodeCount (c.nodeCount - b.nodeCount) := by
      obtain ⟨m, hm⟩ : ∃ m, b.nodeCount = a.nodeCount + m :=
        Nat.exists_eq_add_of_le hcount₁
      obtain ⟨k, hk⟩ : ∃ k, c.nodeCount = b.nodeCount + k :=
        Nat.exists_eq_add_of_le hcount₂
      have h₁ : b.nodeCount - a.nodeCount = m := by omega
      have h₂ : c.nodeCount - b.nodeCount = k := by omega
      have h₃ : c.nodeCount - a.nodeCount = m + k := by omega
      rw [h₁, h₂, h₃, hm, List.range'_append_1]
    have h₁p := h₁.perm
    rw [ids_append, Forest.labels_append] at h₁p ⊢
    rw [hsplit, ← List.append_assoc]
    refine (h₂.perm.append_right _).trans ?_
    calc (ids t).labels ++ List.range' b.nodeCount (c.nodeCount - b.nodeCount) ++ (ids u).labels
        |>.Perm ((ids t).labels ++ (ids u).labels ++
          List.range' b.nodeCount (c.nodeCount - b.nodeCount)) := by
          rw [List.append_assoc, List.append_assoc]
          exact List.Perm.append_left _ List.perm_append_comm
      _ |>.Perm _ := h₁p.append_right _
  -- a node is in both trees neither as an old node nor as a new one
  · refine owns_append.mpr ⟨h₂.owns, owns_congr hu hkeep hcount₂, ?_⟩
    intro i hi hi'
    rcases h₂.mem_or hi with h | h
    · exact hd h hi'
    · have := (hu.bounds i hi').2
      omega

/-- A sub-production takes over nothing and adds its trees. -/
theorem Builds.call {a b c : Ast} {o : List Nat} {t u : Located} (h₁ : Builds a b o t)
    (h₂ : Builds b c [] u) : Builds a c o (t ++ u) :=
  Builds.comm (Builds.trans (t := .nil) (by simpa using h₁) (by simpa using h₂))

/-- A production that takes over all the trees. -/
theorem Builds.through {a b c : Ast} {o : List Nat} {t u : Located} (h₁ : Builds a b o t)
    (h₂ : Builds b c (ids t).labels u) : Builds a c o u := by
  have := Builds.trans (u := .nil) (by simpa using h₁) h₂
  simpa using this

/-! ### The parser's operations build -/

/-- `nulang__add_node` and a store that gives the new node a kind. -/
theorem builds_add {a b : Ast} {id : NodeId} {f : Node → Node} {k : Kind} (hv : a.Valid)
    (hadd : addNode a = some (id, b))
    (hlinks : ∀ n : Node, (⟨(f n).parent, (f n).firstChild, (f n).lastChild, (f n).nextSibling⟩
      : Links) = ⟨n.parent, n.firstChild, n.lastChild, n.nextSibling⟩)
    (hkind : ∀ n : Node, (f n).kind = k) :
    Builds a (b.modifyNode id f) [] (.leaf (id, k)) := by
  unfold addNode at hadd
  split at hadd
  · cases hadd
  · rename_i hfull
    rw [not_le] at hfull
    obtain ⟨rfl, rfl⟩ : a.nodeCount = id ∧ _ = b := by simpa using hadd
    -- the new node is cleared, and what is stored into it keeps the links
    have hnew : (((Ast.modifyNode { a.modifyNode a.nodeCount Ast.unlinked with
        nodeCount := a.nodeCount + 1 } a.nodeCount f)).links a.nodeCount) =
          ⟨nodeNull, nodeNull, nodeNull, nodeNull⟩ := by
      unfold Ast.links
      rw [Ast.modifyNode_nodes_self, hlinks]
      simp [Ast.unlinked]
    refine ⟨rfl, rfl, rfl, Nat.le_succ _, ⟨Nat.succ_pos _, hfull⟩, ?_, ?_, ?_⟩
    · intro i hi _
      rw [Ast.modifyNode_nodes_ne _ _ (by omega)]
      exact Ast.modifyNode_nodes_ne a Ast.unlinked (by omega)
    · simp [Forest.leaf]
    · refine ⟨?_, ?_, ?_, ?_⟩
      · simp only [Forest.leaf, ids_tree, ids_nil, Links.floats_tree, Links.holds_tree]
        exact ⟨hnew, trivial⟩
      · intro x hx
        obtain rfl : x = (a.nodeCount, k) := by simpa [Forest.leaf] using hx
        rw [Ast.modifyNode_nodes_self, hkind]
      · simp [Forest.leaf]
      · intro i hi
        obtain rfl : i = a.nodeCount := by simpa [Forest.leaf] using hi
        exact ⟨hv.pos, Nat.lt_succ_self _⟩

/-- A store into a node's value changes the kind at its place. -/
theorem builds_relabel {a : Ast} {id : NodeId} {k k' : Kind} {cs : Located} {f : Node → Node}
    (hv : a.Valid) (h : a.Owns (.tree (id, k) cs))
    (hlinks : ∀ n : Node, (⟨(f n).parent, (f n).firstChild, (f n).lastChild, (f n).nextSibling⟩
      : Links) = ⟨n.parent, n.firstChild, n.lastChild, n.nextSibling⟩)
    (hkind : (f (a.nodes id)).kind = k') :
    Builds a (a.modifyNode id f) (ids (.tree (id, k) cs)).labels (.tree (id, k') cs) := by
  have hnd := h.nodup
  simp only [ids_tree, Forest.labels_tree, List.nodup_cons] at hnd
  refine ⟨rfl, rfl, rfl, le_refl _, ⟨hv.pos, hv.le⟩, ?_, by simp, ?_, ?_, ?_, ?_⟩
  · intro i _ hi
    refine Ast.modifyNode_nodes_ne a f ?_
    rintro rfl
    exact hi (by simp)
  · refine Links.Floats.congr (m := a.links) (by simpa using h.floats) fun i _ => ?_
    rw [Ast.links_modifyNode a id f (fun l => l) hlinks]
    simp [Links.modifyAt]
  · intro x hx
    rw [Forest.labels_tree] at hx
    rcases List.mem_cons.mp hx with rfl | hx
    · -- the node itself gets its kind, and no other node has its id
      rw [Ast.modifyNode_nodes_self, hkind]
    · have hne : x.1 ≠ id := by
        intro heq
        exact hnd.1 (heq ▸ mem_ids hx)
      rw [Ast.modifyNode_nodes_ne a f hne, h.kinds x (by simp [hx])]
  · simpa using h.nodup
  · simpa using h.bounds

/-- A piece of syntax in the links of an arena: `nulang__append_child` to a node `p` with the
children `cs`, wherever that node hangs, with the tree of `c`. Every assertion holds, and the
tree of `c` becomes the last child. -/
theorem appendChild_spec {a : Ast} {p c : Nat} {cs ds : Forest Nat} {q r : Nat} (hv : a.Valid)
    (hp : Links.Holds nodeNull a.links q r (.tree p cs))
    (hc : Links.Floats nodeNull a.links (.tree c ds))
    (hnd : (Forest.tree p cs ++ Forest.tree c ds).labels.Nodup)
    (hlt : ∀ i ∈ (Forest.tree p cs ++ Forest.tree c ds).labels, i < a.nodeCount) (hc0 : c ≠ 0) :
    (appendChild a p c).asserts = a.asserts ∧
      Links.Holds nodeNull (appendChild a p c).links q r (.tree p (cs ++ .tree c ds)) ∧
      ∀ i < a.nodeCount, i ∉ (Forest.tree p cs ++ Forest.tree c ds).labels →
        (appendChild a p c).nodes i = a.nodes i := by
  have hnull : ∀ i ∈ (Forest.tree p cs ++ Forest.tree c ds).labels, i ≠ nodeNull :=
    fun i hi => hv.ne_null (hlt i hi)
  have hlast : (a.nodes p).lastChild = cs.lastId nodeNull :=
    congrArg Links.lastChild (Links.holds_tree.mp hp).1
  simp only [Forest.tree_append, Forest.labels_cons, Forest.labels_tree, List.mem_cons,
    List.mem_append, List.nodup_cons, not_or] at hnd hnull
  obtain ⟨⟨hpcs, hpc, hpds⟩, hnd⟩ := hnd
  have hccs : c ∉ cs.labels := fun h => List.disjoint_of_nodup_append hnd h (by simp)
  -- the former last child is a child of `p` or the null id
  have hlastcase : cs.lastId nodeNull = nodeNull ∨ cs.lastId nodeNull ∈ cs.labels := by
    cases hcs : cs with
    | nil => exact Or.inl rfl
    | cons b es next =>
        exact Or.inr (Forest.mem_labels_of_mem_roots (Forest.lastId_mem (by simp) _))
  refine ⟨?_, ?_, ?_⟩
  · rw [appendChild_asserts]
    have hpn := hnull p (by simp)
    have hcn := hnull c (by simp)
    have hassert : appendChildAsserts a p c = true := by
      unfold appendChildAsserts
      rw [hlast]
      simp only [decide_eq_true_eq]
      refine ⟨hc0, hpc, ⟨hpn, hcn⟩, ?_, ?_⟩
      · rcases hlastcase with h | h
        · rw [h]; exact Ne.symm hcn
        · exact fun heq => hccs (heq ▸ h)
      · rcases hlastcase with h | h
        · rw [h]; exact Ne.symm hpn
        · exact fun heq => hpcs (heq ▸ h)
    rw [hassert, Bool.and_true]
  · rw [links_appendChild]
    refine Links.holds_attach hp hc ?_ ?_
    · simp only [Forest.tree_append, Forest.labels_cons, Forest.labels_tree, List.nodup_cons,
        List.mem_append, List.mem_cons, not_or]
      exact ⟨⟨hpcs, hpc, hpds⟩, hnd⟩
    · intro h
      rw [Forest.labels_tree, List.mem_cons] at h
      exact hnull nodeNull (by tauto) rfl
  · intro i hi hmem
    simp only [Forest.tree_append, Forest.labels_cons, Forest.labels_tree, List.mem_cons,
      List.mem_append, not_or] at hmem
    refine appendChild_nodes_ne hmem.1 hmem.2.2.1 ?_
    rw [hlast]
    rcases hlastcase with h | h
    · rw [h]
      exact hv.ne_null hi
    · exact fun heq => hmem.2.1 (heq ▸ h)

/-- `nulang__append_child` to a node without parent. -/
theorem builds_append {a : Ast} {x y : NodeId × Kind} {cs ds : Located} (hv : a.Valid)
    (h : a.Owns (.tree x cs ++ .tree y ds)) :
    Builds a (appendChild a x.1 y.1) (ids (.tree x cs ++ .tree y ds)).labels
      (.tree x (cs ++ .tree y ds)) := by
  obtain ⟨hx, hy, -⟩ := owns_append.mp h
  have hfloats := h.floats
  rw [ids_append, Links.floats_append, ids_tree, ids_tree, Links.floats_tree] at hfloats
  have hnd := h.nodup
  have hb := h.bounds
  rw [ids_append, ids_tree, ids_tree] at hnd hb
  -- both trees float, so the links of the child may be set
  obtain ⟨hasserts, hholds, hframe⟩ := appendChild_spec hv hfloats.1 hfloats.2 hnd
    (fun i hi => (hb i hi).2) (Nat.pos_iff_ne_zero.mp (hb y.1 (by simp)).1)
  refine ⟨by simp, by simp, hasserts, by simp, ⟨by simpa using hv.pos, by simpa using hv.le⟩,
    ?_, by simp, ?_, ?_, ?_, ?_⟩
  · intro i hi hmem
    exact hframe i hi (by simpa using hmem)
  · rw [ids_tree, ids_append, ids_tree, Links.floats_tree]
    exact hholds
  · intro z hz
    rw [kind_appendChild]
    exact h.kinds z (by simpa using hz)
  · simpa using hnd
  · simpa using hb

/-- `nulang__append_child` to the last child of a node without parent. -/
theorem builds_appendLast {a : Ast} {x y z : NodeId × Kind} {cs ds es : Located} (hv : a.Valid)
    (h : a.Owns (.tree x (cs ++ .tree y ds) ++ .tree z es)) :
    Builds a (appendChild a y.1 z.1) (ids (.tree x (cs ++ .tree y ds) ++ .tree z es)).labels
      (.tree x (cs ++ .tree y (ds ++ .tree z es))) := by
  have hfloats := h.floats
  rw [ids_append, Links.floats_append, ids_tree, ids_tree, ids_append, ids_tree,
    Links.floats_tree, Links.holds_tree, Links.holds_append] at hfloats
  obtain ⟨⟨hxlinks, hcs, hyholds⟩, hz⟩ := hfloats
  have hnd := h.nodup
  have hb := h.bounds
  have hlabels : (ids (.tree x (cs ++ .tree y ds) ++ .tree z es)).labels =
      x.1 :: ((ids cs).labels ++ y.1 :: ((ids ds).labels ++ z.1 :: (ids es).labels)) := by simp
  rw [hlabels] at hnd hb
  obtain ⟨hxnd, hnd⟩ := List.nodup_cons.mp hnd
  have hyz : (Forest.tree y.1 (ids ds) ++ Forest.tree z.1 (ids es)).labels =
      y.1 :: ((ids ds).labels ++ z.1 :: (ids es).labels) := by simp
  obtain ⟨hasserts, hholds, hframe⟩ := appendChild_spec hv hyholds hz
    (by rw [hyz]; exact hnd.of_append_right)
    (fun i hi => (hb i (by rw [hyz] at hi
                           exact List.mem_cons_of_mem _ (List.mem_append_right _ hi))).2)
    (Nat.pos_iff_ne_zero.mp (hb z.1 (by simp)).1)
  -- the nodes of `x` and of the children before `y` are not written
  have hkeep : ∀ i, i = x.1 ∨ i ∈ (ids cs).labels →
      (appendChild a y.1 z.1).links i = a.links i := by
    intro i hi
    unfold Ast.links
    rw [hframe i ?_ ?_]
    · refine (hb i ?_).2
      rcases hi with rfl | hi
      · simp
      · exact List.mem_cons_of_mem _ (List.mem_append_left _ hi)
    · rw [hyz]
      rcases hi with rfl | hi
      · exact fun hmem => hxnd (List.mem_append_right _ hmem)
      · exact fun hmem => List.disjoint_of_nodup_append hnd hi hmem
  refine ⟨by simp, by simp, hasserts, by simp, ⟨by simpa using hv.pos, by simpa using hv.le⟩,
    ?_, by simp, ?_, ?_, ?_, ?_⟩
  · intro i hi hmem
    refine hframe i hi fun h => hmem ?_
    rw [hyz] at h
    rw [hlabels]
    exact List.mem_cons_of_mem _ (List.mem_append_right _ h)
  · rw [ids_tree, ids_append, ids_tree, ids_append, ids_tree, Links.floats_tree,
      Links.holds_tree, Links.holds_append]
    refine ⟨?_, ?_, hholds⟩
    · rw [hkeep x.1 (Or.inl rfl), hxlinks]
      simp [Forest.firstId_append, Forest.lastId_append]
    · exact hcs.congr fun i hi => hkeep i (Or.inr hi)
  · intro w hw
    rw [kind_appendChild]
    exact h.kinds w (by simpa using hw)
  · simpa using h.nodup
  · simpa using h.bounds

/-! ### The rules as steps of a build -/

section
variable {a b c : Ast} {o : List Nat}

/-- Appending a tree makes it the last child. -/
theorem Builds.append {x y : NodeId × Kind} {cs ds : Located}
    (h : Builds a b o (.tree x cs ++ .tree y ds)) :
    Builds a (appendChild b x.1 y.1) o (.tree x (cs ++ .tree y ds)) :=
  h.through (builds_append h.valid h.owns)

/-- Appending to the last child. -/
theorem Builds.appendLast {x y z : NodeId × Kind} {cs ds es : Located}
    (h : Builds a b o (.tree x (cs ++ .tree y ds) ++ .tree z es)) :
    Builds a (appendChild b y.1 z.1) o (.tree x (cs ++ .tree y (ds ++ .tree z es))) :=
  h.through (builds_appendLast h.valid h.owns)

/-- A change that leaves the links changes the kind of one node. -/
theorem Builds.relabel {id : NodeId} {k k' : Kind} {cs : Located} {f : Node → Node}
    (h : Builds a b o (.tree (id, k) cs))
    (hlinks : ∀ n : Node, (⟨(f n).parent, (f n).firstChild, (f n).lastChild, (f n).nextSibling⟩
      : Links) = ⟨n.parent, n.firstChild, n.lastChild, n.nextSibling⟩)
    (hkind : (f (b.nodes id)).kind = k') :
    Builds a (b.modifyNode id f) o (.tree (id, k') cs) :=
  h.through (builds_relabel h.valid h.owns hlinks hkind)

section
variable {id : NodeId} {f : Node → Node} {k : Kind} (hadd : addNode b = some (id, c))
  (hlinks : ∀ n : Node, (⟨(f n).parent, (f n).firstChild, (f n).lastChild, (f n).nextSibling⟩
    : Links) = ⟨n.parent, n.firstChild, n.lastChild, n.nextSibling⟩)
  (hkind : ∀ n : Node, (f n).kind = k)
include hadd hlinks hkind

/-- A new node above a tree. -/
theorem Builds.wrap {y : NodeId × Kind} {ds : Located} (h : Builds a b o (.tree y ds)) :
    Builds a (appendChild (c.modifyNode id f) id y.1) o (.tree (id, k) (.tree y ds)) := by
  have hnew := (h.call (builds_add h.valid hadd hlinks hkind)).comm
  exact Builds.append (x := (id, k)) (y := y) hnew

/-- A new node above two trees. -/
theorem Builds.wrapTwo {y z : NodeId × Kind} {ds es : Located}
    (h : Builds a b o (.tree y ds ++ .tree z es)) :
    Builds a (appendChild (appendChild (c.modifyNode id f) id y.1) id z.1) o
      (.tree (id, k) (.tree y ds ++ .tree z es)) := by
  have hnew := (h.call (builds_add h.valid hadd hlinks hkind)).comm
  have hleft : Builds a (c.modifyNode id f) o
      ((.leaf (id, k) ++ .tree y ds) ++ .tree z es) := by
    rw [Forest.append_assoc]
    exact hnew
  have hy := hleft.trans (builds_append hleft.valid (owns_append.mp hleft.owns).1)
  exact Builds.append (x := (id, k)) (y := z) hy

/-- A new node as the last child of a tree. -/
theorem Builds.newChild {x : NodeId × Kind} {cs : Located} (h : Builds a b o (.tree x cs)) :
    Builds a (appendChild (c.modifyNode id f) x.1 id) o (.tree x (cs ++ .tree (id, k) .nil)) :=
  Builds.append (y := (id, k)) (h.call (builds_add h.valid hadd hlinks hkind))

end

end

end Nucleus.Proofs
