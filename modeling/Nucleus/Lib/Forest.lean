import Mathlib.Data.List.Basic

/-!
# `Nucleus.Lib.Forest`: ordered forests

A forest is a list of trees, spelled the way a first-child / next-sibling arena stores it:
a root label, the forest of the root's children, and the forest of the trees after it. So
functions and proofs recurse structurally, with no list nested in the type.

`Forest.append` puts two forests side by side, `roots` are the labels of the top trees and
`labels` are all labels in pre-order.
-/

set_option autoImplicit false

namespace Nucleus.Lib

/-- An ordered forest with labels in `α`. -/
inductive Forest (α : Type) where
  | nil
  | cons (label : α) (children next : Forest α)
  deriving DecidableEq

namespace Forest

variable {α β : Type}

/-- The tree with the label `a` and the children `cs`. -/
def tree (a : α) (cs : Forest α) : Forest α := cons a cs nil

/-- The tree with the label `a` and no children. -/
def leaf (a : α) : Forest α := tree a nil

/-- Two forests side by side. -/
def append : Forest α → Forest α → Forest α
  | nil, g => g
  | cons a cs next, g => cons a cs (append next g)

instance : Append (Forest α) := ⟨append⟩

/-- The labels of the top trees, in order. -/
def roots : Forest α → List α
  | nil => []
  | cons a _ next => a :: roots next

/-- All labels, in pre-order. -/
def labels : Forest α → List α
  | nil => []
  | cons a cs next => a :: (labels cs ++ labels next)

/-- The number of nodes. -/
def size : Forest α → Nat
  | nil => 0
  | cons _ cs next => size cs + size next + 1

/-- Relabel every node. -/
def map (f : α → β) : Forest α → Forest β
  | nil => nil
  | cons a cs next => cons (f a) (map f cs) (map f next)

/-! ### Appending -/

@[simp] theorem nil_append (g : Forest α) : nil ++ g = g := rfl

/-- What is appended comes behind the siblings of the first tree. -/
@[simp] theorem cons_append (a : α) (cs next g : Forest α) :
    cons a cs next ++ g = cons a cs (next ++ g) := rfl

/-- A tree with something appended has it for siblings. -/
@[simp] theorem tree_append (a : α) (cs g : Forest α) : tree a cs ++ g = cons a cs g := rfl

/-- Nothing appended changes nothing. -/
@[simp] theorem append_nil (f : Forest α) : f ++ nil = f := by
  induction f with
  | nil => rfl
  | cons a cs next _ ih => rw [cons_append, ih]

/-- Appending is associative. -/
theorem append_assoc (f g h : Forest α) : f ++ g ++ h = f ++ (g ++ h) := by
  induction f with
  | nil => rfl
  | cons a cs next _ ih => simp only [cons_append, ih]

/-! ### Labels, roots and sizes -/

@[simp] theorem roots_nil : (nil : Forest α).roots = [] := rfl

@[simp] theorem roots_cons (a : α) (cs next : Forest α) :
    (cons a cs next).roots = a :: next.roots := rfl

@[simp] theorem roots_tree (a : α) (cs : Forest α) : (tree a cs).roots = [a] := rfl

/-- The roots of two forests side by side. -/
@[simp] theorem roots_append (f g : Forest α) : (f ++ g).roots = f.roots ++ g.roots := by
  induction f with
  | nil => rfl
  | cons a cs next _ ih => simp [ih]

@[simp] theorem labels_nil : (nil : Forest α).labels = [] := rfl

@[simp] theorem labels_cons (a : α) (cs next : Forest α) :
    (cons a cs next).labels = a :: (cs.labels ++ next.labels) := rfl

@[simp] theorem labels_tree (a : α) (cs : Forest α) : (tree a cs).labels = a :: cs.labels := by
  simp [tree]

/-- The labels of two forests side by side. -/
@[simp] theorem labels_append (f g : Forest α) : (f ++ g).labels = f.labels ++ g.labels := by
  induction f with
  | nil => rfl
  | cons a cs next _ ih => simp [ih]

@[simp] theorem size_nil : (nil : Forest α).size = 0 := rfl

@[simp] theorem size_cons (a : α) (cs next : Forest α) :
    (cons a cs next).size = cs.size + next.size + 1 := rfl

@[simp] theorem size_tree (a : α) (cs : Forest α) : (tree a cs).size = cs.size + 1 := rfl

/-- The sizes of two forests side by side. -/
@[simp] theorem size_append (f g : Forest α) : (f ++ g).size = f.size + g.size := by
  induction f with
  | nil => simp
  | cons a cs next _ ih => simp only [cons_append, size_cons, ih]; omega

/-- The roots are some of the labels, in the same order. -/
theorem roots_sublist_labels (f : Forest α) : f.roots.Sublist f.labels := by
  induction f with
  | nil => exact List.Sublist.refl _
  | cons a cs next _ ih => exact (ih.trans (List.sublist_append_right _ _)).cons_cons a

/-- A root of the forest is one of its labels. -/
theorem mem_labels_of_mem_roots {f : Forest α} {a : α} (h : a ∈ f.roots) : a ∈ f.labels := by
  induction f with
  | nil => simp at h
  | cons b cs next _ ih =>
      rcases List.mem_cons.mp h with rfl | h
      · simp
      · simp [ih h]

/-! ### Relabelling -/

@[simp] theorem map_nil (f : α → β) : (nil : Forest α).map f = nil := rfl

@[simp] theorem map_cons (f : α → β) (a : α) (cs next : Forest α) :
    (cons a cs next).map f = cons (f a) (cs.map f) (next.map f) := rfl

@[simp] theorem map_tree (f : α → β) (a : α) (cs : Forest α) :
    (tree a cs).map f = tree (f a) (cs.map f) := rfl

/-- A map goes through the trees one by one. -/
@[simp] theorem map_append (f : α → β) (g h : Forest α) :
    (g ++ h).map f = g.map f ++ h.map f := by
  induction g with
  | nil => rfl
  | cons a cs next _ ih => simp [ih]

/-- A map takes the roots to the roots. -/
theorem roots_map (f : α → β) (g : Forest α) : (g.map f).roots = g.roots.map f := by
  induction g with
  | nil => rfl
  | cons a cs next _ ih => rw [map_cons, roots_cons, ih, roots_cons, List.map_cons]

/-- A map takes the labels to the labels. -/
theorem labels_map (f : α → β) (g : Forest α) : (g.map f).labels = g.labels.map f := by
  induction g with
  | nil => rfl
  | cons a cs next ihc ihn => simp [ihc, ihn]

/-- A map keeps the shape, and so the size. -/
@[simp] theorem size_map (f : α → β) (g : Forest α) : (g.map f).size = g.size := by
  induction g with
  | nil => rfl
  | cons a cs next ihc ihn => simp [ihc, ihn]

/-- Two maps are one. -/
theorem map_map {γ : Type} (f : α → β) (h : β → γ) (g : Forest α) :
    (g.map f).map h = g.map fun a => h (f a) := by
  induction g with
  | nil => rfl
  | cons a cs next ihc ihn => rw [map_cons, map_cons, ihc, ihn, map_cons]

/-- Two relabellings that agree on the labels of a forest. -/
theorem map_congr {f h : α → β} {g : Forest α} (hagree : ∀ a ∈ g.labels, f a = h a) :
    g.map f = g.map h := by
  induction g with
  | nil => rfl
  | cons a cs next ihc ihn =>
      simp only [labels_cons, List.forall_mem_cons, List.forall_mem_append] at hagree
      rw [map_cons, map_cons, hagree.1, ihc hagree.2.1, ihn hagree.2.2]

/-- There is one label for each node. -/
@[simp] theorem length_labels (f : Forest α) : f.labels.length = f.size := by
  induction f with
  | nil => rfl
  | cons a cs next ihc ihn => simp [ihc, ihn]

end Forest

end Nucleus.Lib
