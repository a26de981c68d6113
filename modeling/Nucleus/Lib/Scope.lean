import Mathlib.Data.List.Nodup
import Nucleus.Lib.Forest

/-!
# `Nucleus.Lib.Scope`: lexical scoping in a forest

Some labels of a forest are declarations, and some are scopes. A declaration is in force from its
place on in pre-order, up to the end of its nearest scope.

Two descriptions of that meet here. `Above`, `Before` and `Nearest` say it by the shape of the
forest. `visits` is the walk with one stack of declarations: it pushes a declaration where it meets
it, and behind a scope it goes back to the stack in front of it. `mem_visits` says which
declarations are on the stack at a label, and `nearest_above_iff` says it with the nearest scope.
-/

set_option autoImplicit false

namespace Nucleus.Lib.Forest

variable {α : Type}

/-- `a` is an ancestor of `b`, and not `b` itself. -/
def Above : Forest α → α → α → Prop
  | nil, _, _ => False
  | cons c cs next, a, b => (a = c ∧ b ∈ cs.labels) ∨ Above cs a b ∨ Above next a b

/-- `b` is a child of `a`. -/
def Child : Forest α → α → α → Prop
  | nil, _, _ => False
  | cons c cs next, a, b => (a = c ∧ b ∈ cs.roots) ∨ Child cs a b ∨ Child next a b

/-- `a` stands before `b` in pre-order. -/
def Before (f : Forest α) (a b : α) : Prop := [a, b].Sublist f.labels

/-- `s` is the nearest of the scopes above `b`. -/
structure Nearest (f : Forest α) (scope : α → Prop) (s b : α) : Prop where
  isScope : scope s
  above : f.Above s b
  nearest : ∀ s', scope s' → f.Above s' b → s' = s ∨ f.Above s' s

/-! ### Labels that are all different -/

/-- The labels are distinct when the first one is new and the two parts have none in common. -/
theorem nodup_labels_cons {a : α} {cs next : Forest α} :
    (cons a cs next).labels.Nodup ↔ (a ∉ cs.labels ∧ a ∉ next.labels) ∧ cs.labels.Nodup ∧
      next.labels.Nodup ∧ cs.labels.Disjoint next.labels := by
  rw [labels_cons, List.nodup_cons, List.mem_append, not_or, List.nodup_append']

section
variable {f cs next : Forest α} {a b d s : α}

/-- What is above something is in the forest. -/
theorem Above.left_mem (h : f.Above a b) : a ∈ f.labels := by
  induction f with
  | nil => exact h.elim
  | cons c cs next ihc ihn =>
      rcases h with ⟨rfl, -⟩ | h | h
      · simp
      · simp [ihc h]
      · simp [ihn h]

/-- What has something above it is in the forest. -/
theorem Above.right_mem (h : f.Above a b) : b ∈ f.labels := by
  induction f with
  | nil => exact h.elim
  | cons c cs next ihc ihn =>
      rcases h with ⟨-, h⟩ | h | h
      · simp [h]
      · simp [ihc h]
      · simp [ihn h]

/-- A parent is in the forest. -/
theorem Child.left_mem (h : f.Child a b) : a ∈ f.labels := by
  induction f with
  | nil => exact h.elim
  | cons c cs next ihc ihn =>
      rcases h with ⟨rfl, -⟩ | h | h
      · simp
      · simp [ihc h]
      · simp [ihn h]

/-- A child is in the forest. -/
theorem Child.right_mem (h : f.Child a b) : b ∈ f.labels := by
  induction f with
  | nil => exact h.elim
  | cons c cs next ihc ihn =>
      rcases h with ⟨-, h⟩ | h | h
      · simp [mem_labels_of_mem_roots h]
      · simp [ihc h]
      · simp [ihn h]

/-- What comes before something is in the forest. -/
theorem Before.left_mem (h : f.Before a b) : a ∈ f.labels := h.subset (by simp)

/-! ### Above -/

section
variable (hnd : (cons a cs next).labels.Nodup)
include hnd

/-- Nothing is above the first root. -/
theorem not_above_head : ¬ (cons a cs next).Above s a := by
  obtain ⟨⟨hcs, hnext⟩, -⟩ := nodup_labels_cons.mp hnd
  rintro (⟨-, h⟩ | h | h)
  · exact hcs h
  · exact hcs h.right_mem
  · exact hnext h.right_mem

/-- Above a label below the first root are this root and what is above it there. -/
theorem above_children (hb : b ∈ cs.labels) :
    (cons a cs next).Above s b ↔ s = a ∨ cs.Above s b := by
  obtain ⟨-, -, -, hdisj⟩ := nodup_labels_cons.mp hnd
  constructor
  · rintro (⟨rfl, -⟩ | h | h)
    · exact Or.inl rfl
    · exact Or.inr h
    · exact absurd h.right_mem (hdisj hb)
  · rintro (rfl | h)
    · exact Or.inl ⟨rfl, hb⟩
    · exact Or.inr (Or.inl h)

/-- The first tree is above nothing behind it. -/
theorem above_next (hb : b ∈ next.labels) : (cons a cs next).Above s b ↔ next.Above s b := by
  obtain ⟨-, -, -, hdisj⟩ := nodup_labels_cons.mp hnd
  constructor
  · rintro (⟨-, h⟩ | h | h)
    · exact absurd hb (hdisj h)
    · exact absurd hb (hdisj h.right_mem)
    · exact h
  · exact fun h => Or.inr (Or.inr h)

/-! ### Before -/

/-- Nothing comes before the first root. -/
theorem not_before_head : ¬ (cons a cs next).Before d a := by
  rw [Before, labels_cons, List.sublist_cons_iff]
  rw [labels_cons, List.nodup_cons] at hnd
  rintro (h | ⟨r, hr, h⟩)
  · exact hnd.1 (h.subset (by simp))
  · cases hr
    exact hnd.1 (h.subset (by simp))

end

/-- A pair in the first or in the second list, or one label in each. -/
theorem pair_sublist_append {l l' : List α} :
    [a, b].Sublist (l ++ l') ↔
      [a, b].Sublist l ∨ (a ∈ l ∧ b ∈ l') ∨ [a, b].Sublist l' := by
  rw [List.sublist_append_iff]
  constructor
  · rintro ⟨_ | ⟨x, _ | ⟨y, ys⟩⟩, l₂, heq, h₁, h₂⟩
    · rw [List.nil_append] at heq
      exact Or.inr (Or.inr (heq ▸ h₂))
    · obtain ⟨rfl, rfl⟩ : a = x ∧ [b] = l₂ := by simpa using heq
      exact Or.inr (Or.inl ⟨List.singleton_sublist.mp h₁, List.singleton_sublist.mp h₂⟩)
    · obtain ⟨rfl, rfl, rfl, -⟩ : a = x ∧ b = y ∧ ys = [] ∧ l₂ = [] := by simpa using heq
      exact Or.inl h₁
  · rintro (h | ⟨ha, hb⟩ | h)
    · exact ⟨[a, b], [], rfl, h, List.nil_sublist _⟩
    · exact ⟨[a], [b], rfl, List.singleton_sublist.mpr ha, List.singleton_sublist.mpr hb⟩
    · exact ⟨[], [a, b], rfl, List.nil_sublist _, h⟩

/-- What stands before a label in a list of different labels. -/
theorem pair_sublist_iff {l l' : List α} (hnd : (l ++ b :: l').Nodup) :
    [a, b].Sublist (l ++ b :: l') ↔ a ∈ l := by
  obtain ⟨-, hl', hdisj⟩ := List.nodup_append'.mp hnd
  rw [pair_sublist_append]
  constructor
  · rintro (h | ⟨ha, -⟩ | h)
    · exact absurd (List.mem_cons_self ..) (hdisj (h.subset (by simp)))
    · exact ha
    · -- behind `b` there is no other `b`
      have hb := (List.nodup_cons.mp hl').1
      rcases List.sublist_cons_iff.mp h with h | ⟨r, hr, h⟩
      · exact absurd (h.subset (by simp)) hb
      · cases hr
        exact absurd (h.subset (by simp)) hb
  · exact fun ha => Or.inr (Or.inl ⟨ha, List.mem_cons_self ..⟩)

/-- A part of a list of different labels keeps their order. -/
theorem pair_sublist_of_sublist {l l' : List α} (h : l.Sublist l') (hnd : l'.Nodup) (ha : a ∈ l)
    (hb : b ∈ l) (hab : [a, b].Sublist l') : [a, b].Sublist l := by
  induction h with
  | slnil => exact absurd ha List.not_mem_nil
  | @cons l₁ l₂ c hsub ih =>
      obtain ⟨hc, hnd⟩ := List.nodup_cons.mp hnd
      rcases List.sublist_cons_iff.mp hab with hab | ⟨r, hr, -⟩
      · exact ih hnd ha hb hab
      · cases hr
        exact absurd (hsub.subset ha) hc
  | @cons_cons l₁ l₂ c hsub ih =>
      obtain ⟨hc, hnd⟩ := List.nodup_cons.mp hnd
      rcases List.sublist_cons_iff.mp hab with hab | ⟨r, hr, hr'⟩
      · -- the new label is neither of the two, as none occurs twice
        have hne : ∀ x ∈ [a, b], x ≠ c := fun x hx heq => hc (heq ▸ hab.subset hx)
        have ha := List.mem_of_ne_of_mem (hne a (by simp)) ha
        have hb := List.mem_of_ne_of_mem (hne b (by simp)) hb
        exact (ih hnd ha hb hab).cons c
      · cases hr
        have hne : b ≠ a := fun heq => hc (heq ▸ List.singleton_sublist.mp hr')
        exact (List.singleton_sublist.mpr (List.mem_of_ne_of_mem hne hb)).cons_cons a

/-- Before a label come the root of its tree, what comes before it in its part, and the trees in
front. -/
theorem before_cons :
    (cons a cs next).Before d b ↔
      (d = a ∧ b ∈ cs.labels ++ next.labels) ∨ cs.Before d b ∨
        (d ∈ cs.labels ∧ b ∈ next.labels) ∨ next.Before d b := by
  unfold Before
  rw [labels_cons, List.sublist_cons_iff, pair_sublist_append, or_comm]
  refine or_congr ⟨?_, ?_⟩ Iff.rfl
  · rintro ⟨r, hr, h⟩
    cases hr
    exact ⟨rfl, List.singleton_sublist.mp h⟩
  · rintro ⟨rfl, h⟩
    exact ⟨[b], rfl, List.singleton_sublist.mpr h⟩

/-- An ancestor stands before what is below it. -/
theorem Above.before (h : f.Above a b) : f.Before a b := by
  induction f with
  | nil => exact h.elim
  | cons c cs next ihc ihn =>
      rw [before_cons]
      rcases h with ⟨rfl, h⟩ | h | h
      · exact Or.inl ⟨rfl, List.mem_append_left _ h⟩
      · exact Or.inr (Or.inl (ihc h))
      · exact Or.inr (Or.inr (Or.inr (ihn h)))

section
variable (hnd : (cons a cs next).labels.Nodup)
include hnd

/-- Below the first root only this root comes before the part. -/
theorem before_children (hb : b ∈ cs.labels) :
    (cons a cs next).Before d b ↔ d = a ∨ cs.Before d b := by
  obtain ⟨-, -, -, hdisj⟩ := nodup_labels_cons.mp hnd
  have hnext : b ∉ next.labels := hdisj hb
  have hlast : ¬ next.Before d b := fun h => hnext (h.subset (by simp))
  rw [before_cons]
  simp [hb, hnext, hlast]

/-- Behind the first tree the whole tree comes before. -/
theorem before_next (hb : b ∈ next.labels) :
    (cons a cs next).Before d b ↔ d = a ∨ d ∈ cs.labels ∨ next.Before d b := by
  obtain ⟨-, -, -, hdisj⟩ := nodup_labels_cons.mp hnd
  have hfirst : ¬ cs.Before d b := fun h => hdisj (h.subset (by simp)) hb
  rw [before_cons]
  simp [hb, hfirst]

end

/-! ### The nearest scope -/

/-- What is above something is above all that is below it. -/
theorem Above.trans (hnd : f.labels.Nodup) (h : f.Above s a) (h' : f.Above a b) :
    f.Above s b := by
  induction f with
  | nil => exact h.elim
  | cons c cs next ihc ihn =>
      obtain ⟨⟨hcs, hnext⟩, hndc, hndn, hdisj⟩ := nodup_labels_cons.mp hnd
      -- `a` is below `s`, so it is not the label at the top
      have ha : a ≠ c := by
        rintro rfl
        exact not_above_head hnd h
      rcases h' with ⟨rfl, -⟩ | h' | h'
      · exact absurd rfl ha
      · rw [above_children hnd h'.left_mem] at h
        rw [above_children hnd h'.right_mem]
        exact h.imp_right fun h => ihc hndc h h'
      · rw [above_next hnd h'.left_mem] at h
        rw [above_next hnd h'.right_mem]
        exact ihn hndn h h'

variable {scope : α → Prop}

/-- Below a scope there is a nearest one. -/
theorem exists_nearest (hnd : f.labels.Nodup) (h : ∃ s, scope s ∧ f.Above s b) :
    ∃ s, f.Nearest scope s b := by
  induction f with
  | nil =>
      obtain ⟨_, _, habove⟩ := h
      exact habove.elim
  | cons c cs next ihc ihn =>
      obtain ⟨-, hndc, hndn, -⟩ := nodup_labels_cons.mp hnd
      obtain ⟨s, hs, habove⟩ := h
      have hb : b ∈ cs.labels ∨ b ∈ next.labels := by
        rcases habove with ⟨-, h⟩ | h | h
        · exact Or.inl h
        · exact Or.inl h.right_mem
        · exact Or.inr h.right_mem
      -- the nearest scope is the nearest one among the children, or the label at the top
      rcases hb with hb | hb
      · by_cases hinner : ∃ s, scope s ∧ cs.Above s b
        · obtain ⟨s', hs'⟩ := ihc hndc hinner
          refine ⟨s', hs'.isScope, (above_children hnd hb).mpr (Or.inr hs'.above), fun t ht h => ?_⟩
          rw [above_children hnd hs'.above.left_mem]
          rcases (above_children hnd hb).mp h with rfl | h
          · exact Or.inr (Or.inl rfl)
          · exact (hs'.nearest t ht h).imp_right Or.inr
        · -- the only scope above `b` is the label at the top
          have htop : ∀ t, scope t → (cons c cs next).Above t b → t = c := fun t ht h =>
            ((above_children hnd hb).mp h).resolve_right fun h => hinner ⟨t, ht, h⟩
          obtain rfl := htop s hs habove
          exact ⟨s, hs, habove, fun t ht h => Or.inl (htop t ht h)⟩
      · obtain ⟨s', hs'⟩ := ihn hndn ⟨s, hs, (above_next hnd hb).mp habove⟩
        refine ⟨s', hs'.isScope, (above_next hnd hb).mpr hs'.above, fun t ht h => ?_⟩
        rw [above_next hnd hs'.above.left_mem]
        exact hs'.nearest t ht ((above_next hnd hb).mp h)

/-- The nearest scope of `d` is above `b` exactly when all scopes of `d` are. -/
theorem nearest_above_iff (hnd : f.labels.Nodup) (h : ∃ s, scope s ∧ f.Above s d) :
    (∃ s, f.Nearest scope s d ∧ f.Above s b) ↔
      ∀ s, scope s → f.Above s d → f.Above s b := by
  constructor
  · rintro ⟨s, hs, hb⟩ t ht hd
    rcases hs.nearest t ht hd with rfl | hts
    · exact hb
    · exact hts.trans hnd hb
  · intro hall
    obtain ⟨s, hs⟩ := exists_nearest hnd h
    exact ⟨s, hs, hall s hs.isScope hs.above⟩

end

/-! ### The walk -/

section
variable (decl scope : α → Prop) [DecidablePred decl] [DecidablePred scope]

/-- The stack at the children of `a`. -/
def declare (env : List α) (a : α) : List α := if decl a then a :: env else env

/-- The stack behind the forest. -/
def envAfter : Forest α → List α → List α
  | nil, env => env
  | cons a cs next, env =>
      envAfter next (if scope a then env else envAfter cs (declare decl env a))

/-- The labels in pre-order, each with the stack that the walk has there. -/
def visits : Forest α → List α → List (α × List α)
  | nil, _ => []
  | cons a cs next, env =>
      (a, env) :: (visits cs (declare decl env a) ++
        visits next (if scope a then env else envAfter decl scope cs (declare decl env a)))

end

section
variable {decl scope : α → Prop} [DecidablePred decl] [DecidablePred scope] {f : Forest α}
  {a b d : α} {env : List α}

/-- In the environment behind a node are the old names, and its own if it declares one. -/
theorem mem_declare : d ∈ declare decl env a ↔ d ∈ env ∨ (d = a ∧ decl a) := by
  unfold declare
  split <;> simp_all [or_comm]

/-- The visits go through the labels in order. -/
theorem map_fst_visits (decl scope : α → Prop) [DecidablePred decl] [DecidablePred scope] :
    ∀ (f : Forest α) (env : List α),
    (visits decl scope f env).map Prod.fst = f.labels
  | nil, _ => rfl
  | cons a cs next, env => by
      simp only [visits, List.map_cons, List.map_append, map_fst_visits decl scope, labels_cons]

/-- A declaration is put in front of the environment. -/
theorem suffix_declare (env : List α) (a : α) : env <:+ declare decl env a := by
  unfold declare
  split
  · exact List.suffix_cons a env
  · exact List.suffix_refl env

/-- The walk leaves the old stack in place below. -/
theorem suffix_envAfter (f : Forest α) (env : List α) : env <:+ envAfter decl scope f env := by
  induction f generalizing env with
  | nil => exact List.suffix_refl env
  | cons a cs next ihc ihn =>
      refine List.IsSuffix.trans ?_ (ihn _)
      split
      · exact List.suffix_refl env
      · exact (suffix_declare env a).trans (ihc _)

/-- The environment behind a node, as a list. -/
theorem declare_eq (env : List α) (a : α) :
    declare decl env a = ([a].filter decl).reverse ++ env := by
  unfold declare
  split <;> simp_all

/-- The stack behind a forest holds labels of the forest, the last one first. -/
theorem sublist_envAfter (f : Forest α) (env : List α) :
    (envAfter decl scope f env).Sublist ((f.labels.filter decl).reverse ++ env) := by
  induction f generalizing env with
  | nil => exact List.Sublist.refl env
  | cons a cs next ihc ihn =>
      have hhead : (if scope a then env else envAfter decl scope cs (declare decl env a)).Sublist
          ((cs.labels.filter decl).reverse ++ declare decl env a) := by
        split
        · exact ((suffix_declare env a).trans (List.suffix_append _ _)).sublist
        · exact ihc _
      rw [envAfter, labels_cons, ← List.singleton_append, List.filter_append, List.filter_append,
        List.reverse_append, List.reverse_append, List.append_assoc, List.append_assoc,
        ← declare_eq]
      exact (ihn _).trans (hhead.append_left _)

/-- So does the stack at a label. -/
theorem sublist_visits {e : List α} (h : (b, e) ∈ visits decl scope f env) :
    e.Sublist ((f.labels.filter decl).reverse ++ env) := by
  induction f generalizing env with
  | nil => simp [visits] at h
  | cons a cs next ihc ihn =>
      -- what the next tree starts with was declared in this one
      have hhead : (if scope a then env else envAfter decl scope cs (declare decl env a)).Sublist
          ((cs.labels.filter decl).reverse ++ declare decl env a) := by
        split
        · exact ((suffix_declare env a).trans (List.suffix_append _ _)).sublist
        · exact sublist_envAfter cs _
      rw [labels_cons, ← List.singleton_append, List.filter_append, List.filter_append,
        List.reverse_append, List.reverse_append, List.append_assoc, List.append_assoc,
        ← declare_eq]
      rw [visits, List.mem_cons, List.mem_append] at h
      rcases h with heq | h | h
      · obtain ⟨rfl, rfl⟩ := Prod.mk.inj heq
        rw [declare_eq]
        exact (List.sublist_append_right _ _).trans
          ((List.sublist_append_right _ _).trans (List.sublist_append_right _ _))
      · exact (ihc h).trans (List.sublist_append_right _ _)
      · exact (ihn h).trans (hhead.append_left _)

/-- Labels that are all different are on the stack once. -/
theorem nodup_visits {e : List α} (hnd : f.labels.Nodup) (henv : env.Nodup)
    (hnew : ∀ d ∈ env, ¬ decl d) (h : (b, e) ∈ visits decl scope f env) : e.Nodup := by
  refine (sublist_visits h).nodup (List.Nodup.append ?_ henv ?_)
  · exact List.nodup_reverse.mpr (hnd.filter _)
  · intro d hd hmem
    rw [List.mem_reverse, List.mem_filter, decide_eq_true_eq] at hd
    exact hnew d hmem hd.2

variable (hdisj : ∀ a, scope a → ¬ decl a)
include hdisj

/-- Behind a forest its declarations outside all scopes are in force. -/
theorem mem_envAfter (hnd : f.labels.Nodup) :
    d ∈ envAfter decl scope f env ↔
      d ∈ env ∨ (decl d ∧ d ∈ f.labels ∧ ∀ s, scope s → ¬ f.Above s d) := by
  induction f generalizing env with
  | nil => simp [envAfter]
  | cons a cs next ihc ihn =>
      obtain ⟨⟨hac, han⟩, hndc, hndn, hcn⟩ := nodup_labels_cons.mp hnd
      -- the first tree leaves in scope its root and, unless that is a scope, what is inside
      have hhead : d ∈ (if scope a then env else envAfter decl scope cs (declare decl env a)) ↔
          d ∈ env ∨ (decl d ∧ ((d = a) ∨ (d ∈ cs.labels ∧ ¬ scope a ∧
            ∀ s, scope s → ¬ cs.Above s d))) := by
        split
        · rename_i ha
          refine ⟨Or.inl, ?_⟩
          rintro (h | ⟨hd, rfl | ⟨-, hna, -⟩⟩)
          · exact h
          · exact absurd hd (hdisj d ha)
          · exact absurd ha hna
        · rename_i ha
          rw [ihc hndc, mem_declare, or_assoc]
          refine or_congr Iff.rfl ⟨?_, ?_⟩
          · rintro (⟨rfl, hd⟩ | ⟨hd, hmem, h⟩)
            · exact ⟨hd, Or.inl rfl⟩
            · exact ⟨hd, Or.inr ⟨hmem, ha, h⟩⟩
          · rintro ⟨hd, rfl | ⟨hmem, -, h⟩⟩
            · exact Or.inl ⟨rfl, hd⟩
            · exact Or.inr ⟨hd, hmem, h⟩
      -- no label is twice in the forest, so what is above one is in the same tree
      rw [envAfter, ihn hndn, hhead, or_assoc]
      refine or_congr Iff.rfl ⟨?_, ?_⟩
      · rintro (⟨hd, rfl | ⟨hmem, ha, h⟩⟩ | ⟨hd, hmem, h⟩)
        · exact ⟨hd, by simp, fun s _ => not_above_head hnd⟩
        · refine ⟨hd, by simp [hmem], fun s hs habove => ?_⟩
          rcases (above_children hnd hmem).mp habove with rfl | habove
          · exact ha hs
          · exact h s hs habove
        · exact ⟨hd, by simp [hmem], fun s hs habove => h s hs ((above_next hnd hmem).mp habove)⟩
      · rintro ⟨hd, hmem, h⟩
        rw [labels_cons, List.mem_cons, List.mem_append] at hmem
        rcases hmem with rfl | hmem | hmem
        · exact Or.inl ⟨hd, Or.inl rfl⟩
        · refine Or.inl ⟨hd, Or.inr ⟨hmem, fun ha => h a ha ?_, fun s hs habove => h s hs ?_⟩⟩
          · exact (above_children hnd hmem).mpr (Or.inl rfl)
          · exact (above_children hnd hmem).mpr (Or.inr habove)
        · exact Or.inr ⟨hd, hmem, fun s hs habove => h s hs ((above_next hnd hmem).mpr habove)⟩

/-- On the stack at a label are the declarations before it whose scopes are all above it. -/
theorem mem_visits (hnd : f.labels.Nodup) {e : List α} (h : (b, e) ∈ visits decl scope f env) :
    d ∈ e ↔ d ∈ env ∨
      (decl d ∧ f.Before d b ∧ ∀ s, scope s → f.Above s d → f.Above s b) := by
  -- what is visited is a node of the forest
  have hmem : ∀ {g : Forest α} {env : List α}, (b, e) ∈ visits decl scope g env →
      b ∈ g.labels := fun {g env} h => by
    rw [← map_fst_visits decl scope g env]
    exact List.mem_map_of_mem h
  induction f generalizing env with
  | nil => simp [visits] at h
  | cons a cs next ihc ihn =>
      obtain ⟨⟨hac, han⟩, hndc, hndn, hcn⟩ := nodup_labels_cons.mp hnd
      rw [visits, List.mem_cons, List.mem_append] at h
      rcases h with heq | h | h
      -- the visit of `a` itself, before which nothing is declared
      · obtain ⟨rfl, rfl⟩ := Prod.mk.inj heq
        refine ⟨Or.inl, ?_⟩
        rintro (h | ⟨-, hbefore, -⟩)
        · exact h
        · exact absurd hbefore (not_before_head hnd)
      · -- inside `a`, which is declared itself and above all that is declared there
        have hb := hmem h
        refine (ihc hndc h).trans ?_
        rw [mem_declare, or_assoc, before_children hnd hb]
        refine or_congr Iff.rfl ⟨?_, ?_⟩
        · rintro (⟨rfl, hd⟩ | ⟨hd, hbefore, hall⟩)
          · exact ⟨hd, Or.inl rfl, fun s _ habove => absurd habove (not_above_head hnd)⟩
          · refine ⟨hd, Or.inr hbefore, fun s hs habove => ?_⟩
            rw [above_children hnd hb]
            exact ((above_children hnd hbefore.left_mem).mp habove).imp_right (hall s hs)
        · rintro ⟨hd, rfl | hbefore, hall⟩
          · exact Or.inl ⟨rfl, hd⟩
          · refine Or.inr ⟨hd, hbefore, fun s hs habove => ?_⟩
            have hup := hall s hs ((above_children hnd hbefore.left_mem).mpr (Or.inr habove))
            refine ((above_children hnd hb).mp hup).resolve_left ?_
            rintro rfl
            exact hac habove.left_mem
      · -- behind `a`, where no scope of the part before is above
        have hb := hmem h
        have hnd₁ : (cons a cs nil).labels.Nodup := by
          rw [nodup_labels_cons]
          exact ⟨⟨hac, by simp⟩, hndc, List.nodup_nil, List.disjoint_nil_right _⟩
        have henv : d ∈ envAfter decl scope (cons a cs nil) env ↔ _ := mem_envAfter hdisj hnd₁
        rw [envAfter, envAfter, labels_cons, labels_nil, List.append_nil, List.mem_cons] at henv
        -- a scope of the front part is not above a node of the rest
        have hnone : ∀ s, (cons a cs nil).Above s d → ¬ next.Above s b := by
          intro s habove hup
          have hs := habove.left_mem
          rw [labels_cons, labels_nil, List.append_nil, List.mem_cons] at hs
          rcases hs with rfl | hs
          · exact han hup.left_mem
          · exact hcn hs hup.left_mem
        -- in the front part the scopes above a node do not depend on the rest
        have hfront : ∀ s, d = a ∨ d ∈ cs.labels →
            ((cons a cs next).Above s d ↔ (cons a cs nil).Above s d) := by
          rintro s (rfl | hd)
          · exact iff_of_false (not_above_head hnd) (not_above_head hnd₁)
          · rw [above_children hnd hd, above_children hnd₁ hd]
        refine (ihn hndn h).trans ?_
        rw [henv, or_assoc, before_next hnd hb]
        refine or_congr Iff.rfl ⟨?_, ?_⟩
        · rintro (⟨hd, hmem, hall⟩ | ⟨hd, hbefore, hall⟩)
          · exact ⟨hd, hmem.imp_right Or.inl,
              fun s hs habove => absurd ((hfront s hmem).mp habove) (hall s hs)⟩
          · refine ⟨hd, Or.inr (Or.inr hbefore), fun s hs habove => ?_⟩
            rw [above_next hnd hb]
            exact hall s hs ((above_next hnd hbefore.left_mem).mp habove)
        · rintro ⟨hd, hwhere, hall⟩
          by_cases hmem : d = a ∨ d ∈ cs.labels
          · refine Or.inl ⟨hd, hmem, fun s hs habove => hnone s habove ?_⟩
            exact (above_next hnd hb).mp (hall s hs ((hfront s hmem).mpr habove))
          · have hbefore : next.Before d b := by tauto
            refine Or.inr ⟨hd, hbefore, fun s hs habove => ?_⟩
            exact (above_next hnd hb).mp (hall s hs ((above_next hnd hbefore.left_mem).mpr habove))

end

end Nucleus.Lib.Forest
