import Nucleus.Lib.Chain
import Nucleus.Lib.Forest

/-!
# `Nucleus.Lib.Links`: forests in a first-child / next-sibling arena

An arena gives every index four links: its parent, its first and its last child and its next
sibling. `Holds m parent after f` says that the arena `m` stores the forest `f` below
`parent`: the links of every index of `f` are exactly the ones its place in `f` calls for,
and the last tree of `f` is followed by `after`.

* `holds_append` splits a stored forest, `Holds.congr` is the frame rule.
* `holds_attach` is the one update: a tree without parent becomes the last child of a node.
* `Holds.children`, `Holds.parent_eq_iff` and `Holds.existsUnique_path` read the links of a
  stored forest back: the sibling chain of a node, the nodes with a given parent, and the
  one path from the root to every index.
-/

set_option autoImplicit false

namespace Nucleus.Lib

/-- The links of one index of an arena. -/
structure Links where
  parent : Nat
  firstChild : Nat
  lastChild : Nat
  nextSibling : Nat
  deriving DecidableEq

namespace Forest

/-- The first root, `d` if there is none. -/
def firstId : Forest Nat → Nat → Nat
  | nil, d => d
  | cons a _ _, _ => a

/-- The last root, `d` if there is none. -/
def lastId : Forest Nat → Nat → Nat
  | nil, d => d
  | cons a _ next, _ => lastId next a

@[simp] theorem firstId_nil (d : Nat) : firstId nil d = d := rfl

/-- The first root is at the front. -/
@[simp] theorem firstId_cons (a d : Nat) (cs next : Forest Nat) :
    firstId (cons a cs next) d = a := rfl

@[simp] theorem firstId_tree (a d : Nat) (cs : Forest Nat) : firstId (tree a cs) d = a := rfl

@[simp] theorem lastId_nil (d : Nat) : lastId nil d = d := rfl

/-- The last root is behind the first tree, or its root. -/
@[simp] theorem lastId_cons (a d : Nat) (cs next : Forest Nat) :
    lastId (cons a cs next) d = lastId next a := rfl

@[simp] theorem lastId_tree (a d : Nat) (cs : Forest Nat) : lastId (tree a cs) d = a := rfl

/-- The first root of two forests is that of the left one, if it has any. -/
theorem firstId_append (f g : Forest Nat) (d : Nat) :
    firstId (f ++ g) d = firstId f (firstId g d) := by
  cases f with
  | nil => rfl
  | cons a cs next => rfl

/-- The last root of two forests is that of the right one, if it has any. -/
theorem lastId_append (f g : Forest Nat) (d : Nat) :
    lastId (f ++ g) d = lastId g (lastId f d) := by
  induction f generalizing d with
  | nil => rfl
  | cons a cs next _ ih => simp [ih]

/-- A forest with a root has its last root among them. -/
theorem lastId_mem {f : Forest Nat} (h : f ≠ nil) (d : Nat) : lastId f d ∈ f.roots := by
  induction f generalizing d with
  | nil => exact absurd rfl h
  | cons a cs next _ ih =>
      cases next with
      | nil => simp
      | cons b ds rest => exact List.mem_cons_of_mem _ (ih (by simp) a)

/-- The last root, as the last element of the list of roots. -/
theorem lastId_eq_getLastD (f : Forest Nat) (d : Nat) : lastId f d = f.roots.getLastD d := by
  induction f generalizing d with
  | nil => rfl
  | cons a cs next _ ih => rw [lastId_cons, ih, roots_cons, List.getLastD_cons]

/-- `IsSubtree a cs f`: the tree with the root `a` and the children `cs` is a part of `f`. -/
inductive IsSubtree (a : Nat) (cs : Forest Nat) : Forest Nat → Prop where
  | here (next : Forest Nat) : IsSubtree a cs (cons a cs next)
  | child {b : Nat} {ds next : Forest Nat} : IsSubtree a cs ds → IsSubtree a cs (cons b ds next)
  | sibling {b : Nat} {ds next : Forest Nat} :
      IsSubtree a cs next → IsSubtree a cs (cons b ds next)

/-- Every label has a subtree below it. -/
theorem exists_isSubtree {f : Forest Nat} {a : Nat} (h : a ∈ f.labels) :
    ∃ cs, IsSubtree a cs f := by
  induction f with
  | nil => simp at h
  | cons b ds next ihd ihn =>
      rcases List.mem_cons.mp h with rfl | h
      · exact ⟨ds, .here next⟩
      · rcases List.mem_append.mp h with h | h
        · obtain ⟨cs, hcs⟩ := ihd h
          exact ⟨cs, .child hcs⟩
        · obtain ⟨cs, hcs⟩ := ihn h
          exact ⟨cs, .sibling hcs⟩

/-- The labels of a subtree are labels of the forest. -/
theorem IsSubtree.subset {f cs : Forest Nat} {a : Nat} (h : IsSubtree a cs f) :
    ∀ i ∈ a :: cs.labels, i ∈ f.labels := by
  induction h with
  | here next =>
      intro i hi
      simp only [List.mem_cons, labels_cons, List.mem_append] at hi ⊢
      tauto
  | child _ ih =>
      intro i hi
      have := ih i hi
      simp only [labels_cons, List.mem_cons, List.mem_append]
      tauto
  | sibling _ ih =>
      intro i hi
      have := ih i hi
      simp only [labels_cons, List.mem_cons, List.mem_append]
      tauto

/-- The children of a node are distinct when all labels are. -/
theorem IsSubtree.nodup_roots {f cs : Forest Nat} {a : Nat} (h : IsSubtree a cs f)
    (hnd : f.labels.Nodup) : cs.roots.Nodup := by
  induction h with
  | here next =>
      rw [labels_cons, List.nodup_cons] at hnd
      exact (roots_sublist_labels cs).nodup (List.Nodup.of_append_left hnd.2)
  | child _ ih =>
      rw [labels_cons, List.nodup_cons] at hnd
      exact ih (List.Nodup.of_append_left hnd.2)
  | sibling _ ih =>
      rw [labels_cons, List.nodup_cons] at hnd
      exact ih (List.Nodup.of_append_right hnd.2)

end Forest

namespace Links

open Forest

/-- Change the links of one index. -/
def modifyAt (m : Nat → Links) (i : Nat) (f : Links → Links) : Nat → Links :=
  fun j => if j = i then f (m j) else m j

/-- The node that is modified. -/
@[simp] theorem modifyAt_self (m : Nat → Links) (i : Nat) (f : Links → Links) :
    modifyAt m i f i = f (m i) := by simp [modifyAt]

/-- The other nodes stay as they are. -/
theorem modifyAt_ne {i j : Nat} (m : Nat → Links) (f : Links → Links) (h : j ≠ i) :
    modifyAt m i f j = m j := by simp [modifyAt, h]

section
variable (null : Nat)

/-- The arena stores `f` below `parent`, and `after` follows its last tree. -/
def Holds (m : Nat → Links) : Nat → Nat → Forest Nat → Prop
  | _, _, .nil => True
  | parent, after, .cons a cs next =>
      m a = ⟨parent, cs.firstId null, cs.lastId null, next.firstId after⟩ ∧
        Holds m a null cs ∧ Holds m parent after next

/-- The arena stores every tree of `f`, and none of them has a parent or a sibling. -/
def Floats (m : Nat → Links) : Forest Nat → Prop
  | .nil => True
  | .cons a cs next =>
      m a = ⟨null, cs.firstId null, cs.lastId null, null⟩ ∧ Holds null m a null cs ∧ Floats m next

/-- Make `c` the last child of `p`. -/
def attach (m : Nat → Links) (p c : Nat) : Nat → Links :=
  let last := (m p).lastChild
  let m :=
    if last ≠ null then
      modifyAt (modifyAt m last fun l => { l with nextSibling := c }) p
        fun l => { l with lastChild := c }
    else modifyAt m p fun l => { l with firstChild := c, lastChild := c }
  modifyAt m c fun l => { l with parent := p }

end

variable {null : Nat} {m m' : Nat → Links}

@[simp] theorem holds_nil (p q : Nat) : Holds null m p q .nil := trivial

/-- A first tree has its links, its children hang on it, and the siblings behind it hang on the same
parent. -/
theorem holds_cons {p q a : Nat} {cs next : Forest Nat} :
    Holds null m p q (.cons a cs next) ↔
      m a = ⟨p, cs.firstId null, cs.lastId null, next.firstId q⟩ ∧
        Holds null m a null cs ∧ Holds null m p q next := Iff.rfl

/-- A tree by itself has its links, and its children hang on it. -/
theorem holds_tree {p q a : Nat} {cs : Forest Nat} :
    Holds null m p q (tree a cs) ↔
      m a = ⟨p, cs.firstId null, cs.lastId null, q⟩ ∧ Holds null m a null cs := by
  simp [tree, holds_cons]

@[simp] theorem floats_nil : Floats null m .nil := trivial

/-- A first tree without parent and siblings, and the others the same. -/
theorem floats_cons {a : Nat} {cs next : Forest Nat} :
    Floats null m (.cons a cs next) ↔
      m a = ⟨null, cs.firstId null, cs.lastId null, null⟩ ∧ Holds null m a null cs ∧
        Floats null m next := Iff.rfl

/-- A single tree that floats hangs on nothing. -/
theorem floats_tree {a : Nat} {cs : Forest Nat} :
    Floats null m (tree a cs) ↔ Holds null m null null (tree a cs) := by
  simp [tree, floats_cons, holds_cons]

/-- Two forests float when each does. -/
theorem floats_append {f g : Forest Nat} :
    Floats null m (f ++ g) ↔ Floats null m f ∧ Floats null m g := by
  induction f with
  | nil => simp
  | cons a cs next _ ih => simp only [cons_append, floats_cons, ih, and_assoc]

/-! ### Frame and append -/

/-- The frame rule: a stored forest depends on the links of its own indices only. -/
theorem Holds.congr {f : Forest Nat} {p q : Nat} (h : Holds null m p q f)
    (heq : ∀ i ∈ f.labels, m' i = m i) : Holds null m' p q f := by
  induction f generalizing p q with
  | nil => trivial
  | cons a cs next ihc ihn =>
      obtain ⟨ha, hc, hn⟩ := h
      refine ⟨by rw [heq a (by simp), ha], ihc hc fun i hi => heq i ?_,
        ihn hn fun i hi => heq i ?_⟩
      · simp [hi]
      · simp [hi]

/-- A forest floats where its nodes have the same links. -/
theorem Floats.congr {f : Forest Nat} (h : Floats null m f)
    (heq : ∀ i ∈ f.labels, m' i = m i) : Floats null m' f := by
  induction f with
  | nil => trivial
  | cons a cs next _ ihn =>
      obtain ⟨ha, hc, hn⟩ := h
      refine ⟨by rw [heq a (by simp), ha], hc.congr fun i hi => heq i ?_,
        ihn hn fun i hi => heq i ?_⟩
      · simp [hi]
      · simp [hi]

/-- Two forests side by side: the last root of the left one links to the first root of the right
one. -/
theorem holds_append {f g : Forest Nat} {p q : Nat} :
    Holds null m p q (f ++ g) ↔
      Holds null m p (g.firstId q) f ∧ Holds null m p q g := by
  induction f with
  | nil => simp
  | cons a cs next _ ih =>
      simp only [cons_append, holds_cons, ih, firstId_append, and_assoc]

/-! ### Attaching a tree -/

/-- Redirecting the next sibling of the last tree changes what follows the forest. -/
theorem Holds.setNext {f : Forest Nat} {p q : Nat} (h : Holds null m p q f)
    (hnd : f.labels.Nodup) (hne : f ≠ .nil) (c d : Nat) :
    Holds null (modifyAt m (f.lastId d) fun l => { l with nextSibling := c }) p c f := by
  induction f generalizing d with
  | nil => exact absurd rfl hne
  | cons a cs next _ ihn =>
      obtain ⟨ha, hc, hn⟩ := h
      simp only [labels_cons, List.nodup_cons, List.mem_append, not_or] at hnd
      obtain ⟨⟨hacs, hanext⟩, hnd⟩ := hnd
      cases next with
      | nil =>
          refine ⟨by simp [ha], hc.congr fun i hi => modifyAt_ne _ _ ?_, trivial⟩
          rintro rfl
          exact hacs hi
      | cons b ds rest =>
          -- the last label is behind the first one, which keeps its link
          have hmem : lastId (.cons b ds rest) a ∈ (Forest.cons b ds rest).labels :=
            mem_labels_of_mem_roots (lastId_mem (by simp) a)
          refine ⟨?_, hc.congr fun i hi => modifyAt_ne _ _ ?_,
            ihn hn (List.Nodup.of_append_right hnd) (by simp) a⟩
          · rw [modifyAt_ne _ _ (fun h => hanext (by rw [h]; exact hmem)), ha]
            rfl
          · rintro rfl
            exact (List.disjoint_of_nodup_append hnd) hi hmem

/-- A tree without parent becomes the last child of `p`. -/
theorem holds_attach {cs ds : Forest Nat} {p q r c : Nat} (hp : Holds null m q r (tree p cs))
    (hc : Floats null m (tree c ds)) (hnd : (tree p cs ++ tree c ds).labels.Nodup)
    (hnull : null ∉ (tree p cs).labels) :
    Holds null (attach null m p c) q r (tree p (cs ++ tree c ds)) := by
  rw [floats_tree, holds_tree] at hc
  rw [holds_tree] at hp
  obtain ⟨hmp, hcs⟩ := hp
  obtain ⟨hmc, hds⟩ := hc
  -- no node is twice in the two trees
  have hlabels : (tree p cs ++ tree c ds).labels = p :: (cs.labels ++ c :: ds.labels) := by simp
  rw [hlabels, List.nodup_cons, List.mem_append, List.mem_cons, not_or, not_or] at hnd
  obtain ⟨⟨hpcs, hpc, hpds⟩, hnd⟩ := hnd
  have hndcs : cs.labels.Nodup := List.Nodup.of_append_left hnd
  have hdisj := List.disjoint_of_nodup_append hnd
  have hcds : c ∉ ds.labels := (List.nodup_cons.mp (List.Nodup.of_append_right hnd)).1
  have hccs : c ∉ cs.labels := fun h => hdisj h (by simp)
  have hic : ∀ i ∈ ds.labels, i ≠ c ∧ i ≠ p := fun i hi =>
    ⟨fun h => hcds (h ▸ hi), fun h => hpds (h ▸ hi)⟩
  have hip : ∀ i ∈ cs.labels, i ≠ c ∧ i ≠ p := fun i hi =>
    ⟨fun h => hccs (h ▸ hi), fun h => hpcs (h ▸ hi)⟩
  rw [holds_tree, holds_append, holds_tree, firstId_append, lastId_append]
  unfold attach
  -- the first child is stored in the parent, a later one in the child before it
  cases hcase : cs with
  | nil =>
      subst hcase
      simp only [hmp, lastId_nil, ne_eq, not_true_eq_false, if_false]
      refine ⟨?_, trivial, ?_, hds.congr fun i hi => ?_⟩
      · rw [modifyAt_ne _ _ hpc]
        simp [hmp]
      · rw [modifyAt_self, modifyAt_ne _ _ (Ne.symm hpc), hmc]
      · rw [modifyAt_ne _ _ (hic i hi).1, modifyAt_ne _ _ (hic i hi).2]
  | cons b es rest =>
      -- the last child gets a sibling, and is none of the nodes behind `c`
      have hne : cs ≠ .nil := by rw [hcase]; simp
      have hmem : cs.lastId null ∈ cs.labels := mem_labels_of_mem_roots (lastId_mem hne null)
      have hlast : cs.lastId null ≠ null := by
        intro h
        exact hnull (by rw [labels_tree, ← h]; exact List.mem_cons_of_mem _ hmem)
      rw [← hcase]
      simp only [hmp, if_pos hlast]
      have hpl : p ≠ cs.lastId null := fun h => hpcs (h ▸ hmem)
      have hcl : c ≠ cs.lastId null := fun h => hccs (h ▸ hmem)
      refine ⟨?_, ?_, ?_, hds.congr fun i hi => ?_⟩
      · rw [modifyAt_ne _ _ hpc, modifyAt_self, modifyAt_ne _ _ hpl, hmp, hcase]
        rfl
      · refine (hcs.setNext hndcs hne c null).congr fun i hi => ?_
        rw [modifyAt_ne _ _ (hip i hi).1, modifyAt_ne _ _ (hip i hi).2]
      · rw [modifyAt_self, modifyAt_ne _ _ (Ne.symm hpc), modifyAt_ne _ _ hcl, hmc]
      · have hil : i ≠ cs.lastId null := by
          rintro rfl
          exact hdisj hmem (List.mem_cons_of_mem _ hi)
        rw [modifyAt_ne _ _ (hic i hi).1, modifyAt_ne _ _ (hic i hi).2, modifyAt_ne _ _ hil]

/-! ### Reading a stored forest -/

/-- The sibling chain of a stored forest. -/
theorem Holds.isChain {f : Forest Nat} {p : Nat} (h : Holds null m p null f)
    (hnull : null ∉ f.labels) :
    IsChain null (fun i => (m i).nextSibling) (f.firstId null) f.roots := by
  induction f with
  | nil => rfl
  | cons a cs next _ ih =>
      obtain ⟨ha, -, hn⟩ := h
      simp only [labels_cons, List.mem_cons, List.mem_append, not_or] at hnull
      have hnext : (m a).nextSibling = next.firstId null := by rw [ha]
      refine ⟨rfl, Ne.symm hnull.1, ?_⟩
      simp only [hnext]
      exact ih hn hnull.2.2

/-- The links of a subtree are stored as its own. -/
theorem Holds.subtree {f cs : Forest Nat} {p q a : Nat} (h : Holds null m p q f)
    (hsub : IsSubtree a cs f) :
    (m a).firstChild = cs.firstId null ∧ (m a).lastChild = cs.lastId null ∧
      Holds null m a null cs := by
  induction hsub generalizing p q with
  | here next =>
      obtain ⟨ha, hc, -⟩ := h
      rw [ha]
      exact ⟨rfl, rfl, hc⟩
  | child _ ih => exact ih h.2.1
  | sibling _ ih => exact ih h.2.2

/-- The chain of the children of a stored node. -/
theorem Holds.children {f cs : Forest Nat} {p q a : Nat} (h : Holds null m p q f)
    (hsub : IsSubtree a cs f) (hnull : null ∉ f.labels) :
    IsChain null (fun i => (m i).nextSibling) (m a).firstChild cs.roots ∧
      (m a).lastChild = cs.roots.getLastD null := by
  obtain ⟨hfirst, hlast, hcs⟩ := h.subtree hsub
  rw [hfirst, hlast, lastId_eq_getLastD]
  exact ⟨hcs.isChain fun h => hnull (hsub.subset null (List.mem_cons_of_mem _ h)), rfl⟩

/-- The roots of a forest hang on its parent. -/
theorem Holds.parent_of_mem_roots {f : Forest Nat} {p q i : Nat} (h : Holds null m p q f)
    (hi : i ∈ f.roots) : (m i).parent = p := by
  induction f with
  | nil => simp at hi
  | cons a cs next _ ih =>
      obtain ⟨ha, -, hn⟩ := h
      rcases List.mem_cons.mp hi with rfl | hi
      · rw [ha]
      · exact ih hn hi

/-- An index is a top node or its parent is another index of the forest. -/
theorem Holds.parent_mem {f : Forest Nat} {p q i : Nat} (h : Holds null m p q f)
    (hi : i ∈ f.labels) : i ∈ f.roots ∨ (m i).parent ∈ f.labels := by
  induction f generalizing p q with
  | nil => simp at hi
  | cons a cs next ihc ihn =>
      obtain ⟨-, hc, hn⟩ := h
      rcases List.mem_cons.mp hi with rfl | hi
      · exact Or.inl (by simp)
      · rcases List.mem_append.mp hi with hi | hi
        · refine Or.inr ?_
          rcases ihc hc hi with hr | hl
          · rw [hc.parent_of_mem_roots hr]
            simp
          · simp [hl]
        · rcases ihn hn hi with hr | hl
          · exact Or.inl (List.mem_cons_of_mem _ hr)
          · exact Or.inr (by simp [hl])

/-- The nodes with the parent `a` are the children of `a`. -/
theorem Holds.parent_eq_iff {f cs : Forest Nat} {p q a i : Nat} (h : Holds null m p q f)
    (hnd : f.labels.Nodup) (hp : p ∉ f.labels) (hsub : IsSubtree a cs f) (hi : i ∈ f.labels) :
    (m i).parent = a ↔ i ∈ cs.roots := by
  constructor
  · intro hpar
    -- by induction on where the subtree is: elsewhere no node has `a` for its parent
    induction hsub generalizing p q i with
    | here next =>
        obtain ⟨ha, hc, hn⟩ := h
        simp only [labels_cons, List.nodup_cons, List.mem_append, List.mem_cons, not_or] at *
        obtain ⟨⟨hacs, hanext⟩, hnd⟩ := hnd
        rcases hi with rfl | hi | hi
        · -- the node itself hangs below `p`
          rw [ha] at hpar
          exact absurd hpar hp.1
        -- below `a` a node has `a` or a deeper node for its parent
        · rcases hc.parent_mem hi with hr | hl
          · exact hr
          · rw [hpar] at hl
            exact absurd hl hacs
        · rcases hn.parent_mem hi with hr | hl
          · rw [hn.parent_of_mem_roots hr] at hpar
            exact absurd hpar hp.1
          · rw [hpar] at hl
            exact absurd hl hanext
    | @child b ds next hsub ih =>
        obtain ⟨hb, hc, hn⟩ := h
        have hads := hsub.subset a (by simp)
        simp only [labels_cons, List.nodup_cons, List.mem_append, List.mem_cons, not_or] at *
        obtain ⟨⟨hbds, hbnext⟩, hnd⟩ := hnd
        have hanext : a ∉ next.labels := fun h => List.disjoint_of_nodup_append hnd hads h
        have hpa : p ≠ a := fun h => hp.2.1 (h ▸ hads)
        rcases hi with rfl | hi | hi
        · rw [hb] at hpar
          exact absurd hpar hpa
        · exact ih hc (List.Nodup.of_append_left hnd) hbds hi hpar
        · rcases hn.parent_mem hi with hr | hl
          · rw [hn.parent_of_mem_roots hr] at hpar
            exact absurd hpar hpa
          · rw [hpar] at hl
            exact absurd hl hanext
    | @sibling b ds next hsub ih =>
        obtain ⟨hb, hc, hn⟩ := h
        have hanext := hsub.subset a (by simp)
        simp only [labels_cons, List.nodup_cons, List.mem_append, List.mem_cons, not_or] at *
        obtain ⟨⟨hbds, hbnext⟩, hnd⟩ := hnd
        have hads : a ∉ ds.labels := fun h => List.disjoint_of_nodup_append hnd h hanext
        have hpa : p ≠ a := fun h => hp.2.2 (h ▸ hanext)
        rcases hi with rfl | hi | hi
        · rw [hb] at hpar
          exact absurd hpar hpa
        · rcases hc.parent_mem hi with hr | hl
          · rw [hc.parent_of_mem_roots hr] at hpar
            exact absurd (hpar ▸ hanext) hbnext
          · rw [hpar] at hl
            exact absurd hl hads
        · exact ih hn (List.Nodup.of_append_right hnd) hp.2.2 hi hpar
  · intro hr
    exact (h.subtree hsub).2.2.parent_of_mem_roots hr

/-! ### Paths -/

/-- A step of a path through the arena. -/
inductive Move where
  | firstChild
  | nextSibling
  deriving DecidableEq, Repr

/-- The index a path from `i` ends at, `none` when it leaves the arena. -/
def walk (null : Nat) (m : Nat → Links) : Nat → List Move → Option Nat
  | i, [] => if i = null then none else some i
  | i, .firstChild :: ms => if i = null then none else walk null m (m i).firstChild ms
  | i, .nextSibling :: ms => if i = null then none else walk null m (m i).nextSibling ms

/-- From `null` no walk goes on. -/
theorem walk_null (ms : List Move) : walk null m null ms = none := by
  rcases ms with _ | ⟨_ | _, ms⟩ <;> simp [walk]

/-- A path through a stored forest ends in it. -/
theorem Holds.mem_of_walk {f : Forest Nat} {p a : Nat} (h : Holds null m p null f)
    {ms : List Move} (hw : walk null m (f.firstId null) ms = some a) : a ∈ f.labels := by
  induction f generalizing p ms with
  | nil => rw [firstId_nil, walk_null] at hw; cases hw
  | cons b cs next ihc ihn =>
      obtain ⟨hb, hc, hn⟩ := h
      rw [firstId_cons] at hw
      rcases ms with _ | ⟨_ | _, ms⟩
      all_goals
        simp only [walk] at hw
        split at hw
        · cases hw
      · simp_all
      · rw [hb] at hw
        simp [ihc hc hw]
      · rw [hb] at hw
        simp [ihn hn hw]

/-- Every index of a stored forest is reached by exactly one path. -/
theorem Holds.existsUnique_path {f : Forest Nat} {p a : Nat} (h : Holds null m p null f)
    (hnd : f.labels.Nodup) (hnull : null ∉ f.labels) (ha : a ∈ f.labels) :
    ∃! ms, walk null m (f.firstId null) ms = some a := by
  induction f generalizing p with
  | nil => simp at ha
  | cons b cs next ihc ihn =>
      obtain ⟨hb, hc, hn⟩ := h
      simp only [labels_cons, List.nodup_cons, List.mem_append, List.mem_cons, not_or]
        at hnd hnull ha
      obtain ⟨⟨hbcs, hbnext⟩, hnd⟩ := hnd
      have hdisj := List.disjoint_of_nodup_append hnd
      have hbnull : b ≠ null := fun h => hnull.1 h.symm
      -- the three ways on from a node: stop there, go down, or go on to the next sibling
      have hdown : ∀ ms, walk null m b (.firstChild :: ms) = walk null m (cs.firstId null) ms := by
        intro ms
        simp only [walk, if_neg hbnull, hb]
      have hright :
          ∀ ms, walk null m b (.nextSibling :: ms) = walk null m (next.firstId null) ms := by
        intro ms
        simp only [walk, if_neg hbnull, hb]
      have hhere : walk null m b [] = some b := by simp [walk, hbnull]
      rw [firstId_cons]
      -- each way comes to one part of the forest only, and no node is in two parts
      rcases ha with rfl | ha | ha
      · refine ⟨[], hhere, fun ms hms => ?_⟩
        rcases ms with _ | ⟨_ | _, ms⟩
        · rfl
        · rw [hdown] at hms
          exact absurd (hc.mem_of_walk hms) hbcs
        · rw [hright] at hms
          exact absurd (hn.mem_of_walk hms) hbnext
      · obtain ⟨path, hpath, huniq⟩ :=
          ihc hc (List.Nodup.of_append_left hnd) hnull.2.1 ha
        refine ⟨.firstChild :: path, by show walk null m b _ = _; rw [hdown, hpath],
          fun ms hms => ?_⟩
        rcases ms with _ | ⟨_ | _, ms⟩
        · rw [hhere, Option.some.injEq] at hms
          exact absurd (hms ▸ ha) hbcs
        · rw [hdown] at hms
          rw [huniq ms hms]
        · rw [hright] at hms
          exact absurd (hn.mem_of_walk hms) fun h => hdisj ha h
      · obtain ⟨path, hpath, huniq⟩ :=
          ihn hn (List.Nodup.of_append_right hnd) hnull.2.2 ha
        refine ⟨.nextSibling :: path, by show walk null m b _ = _; rw [hright, hpath],
          fun ms hms => ?_⟩
        rcases ms with _ | ⟨_ | _, ms⟩
        · rw [hhere, Option.some.injEq] at hms
          exact absurd (hms ▸ ha) hbnext
        · rw [hdown] at hms
          exact absurd (hc.mem_of_walk hms) fun h => hdisj h ha
        · rw [hright] at hms
          rw [huniq ms hms]

end Links

end Nucleus.Lib
