import Mathlib.Data.List.Nodup
import Mathlib.Logic.Function.Basic

/-!
# `Nucleus.Lib.Chain`: singly and doubly linked chains

A chain is threaded through cells by a function `next`. `Seg next i l j` says that following
`next` from `i` visits the cells `l` and arrives at `j`, `IsChain null next i l` that it
visits `l` and ends at `null`.

`Linked` is a doubly linked chain with its two ends. `Linked.append`, `Linked.cons` and
`Linked.remove` are the edits, spelled with the pointer updates that a C program makes.
-/

set_option autoImplicit false

namespace Nucleus.Lib

variable {α : Type}

/-! ### Segments -/

/-- Following `next` from `i` visits `l` and arrives at `j`. -/
def Seg (next : α → α) : α → List α → α → Prop
  | i, [], j => i = j
  | i, c :: cs, j => i = c ∧ Seg next (next c) cs j

variable {next prev : α → α} {i j null : α}

/-- An empty segment ends where it starts. -/
@[simp] theorem seg_nil : Seg next i [] j ↔ i = j := Iff.rfl

/-- The first element of a segment is where it starts, and the rest starts at its successor. -/
@[simp] theorem seg_cons {c : α} {cs : List α} :
    Seg next i (c :: cs) j ↔ i = c ∧ Seg next (next c) cs j := Iff.rfl

/-- A segment of two parts has a place where they meet. -/
theorem seg_append {l l' : List α} :
    Seg next i (l ++ l') j ↔ ∃ k, Seg next i l k ∧ Seg next k l' j := by
  induction l generalizing i with
  | nil => simp
  | cons c cs ih =>
      simp only [List.cons_append, seg_cons, ih]
      constructor
      · rintro ⟨hi, k, h, h'⟩
        exact ⟨k, ⟨hi, h⟩, h'⟩
      · rintro ⟨k, ⟨hi, h⟩, h'⟩
        exact ⟨hi, k, h, h'⟩

/-- A segment reads the links of its own cells only. -/
theorem Seg.congr {next' : α → α} {l : List α} (h : Seg next i l j)
    (heq : ∀ c ∈ l, next' c = next c) : Seg next' i l j := by
  induction l generalizing i with
  | nil => exact h
  | cons c cs ih =>
      refine ⟨h.1, ?_⟩
      rw [heq c (by simp)]
      exact ih h.2 fun d hd => heq d (List.mem_cons_of_mem _ hd)

/-- A segment starts at its first element, and an empty one at its end. -/
theorem Seg.head_eq {l : List α} (h : Seg next i l j) : i = l.headD j := by
  cases l with
  | nil => exact h
  | cons c cs => exact h.1

section
variable [DecidableEq α]

/-- The links of what is not in a segment do not matter to it. -/
theorem Seg.update {l : List α} {x y : α} (h : Seg next i l j) (hx : x ∉ l) :
    Seg (Function.update next x y) i l j :=
  h.congr fun c hc => Function.update_of_ne (by rintro rfl; exact hx hc) _ _

/-- Redirecting the link of the last cell. -/
theorem Seg.redirect {l : List α} {x k : α} (h : Seg next i (l ++ [x]) j)
    (hnd : (l ++ [x]).Nodup) : Seg (Function.update next x k) i (l ++ [x]) k := by
  obtain ⟨m, hl, hm⟩ := seg_append.mp h
  have hx : x ∉ l := fun hmem => List.disjoint_of_nodup_append hnd hmem (by simp)
  exact seg_append.mpr ⟨m, hl.update hx, hm.1, by simp⟩

/-- Taking `x` out of a chain: the cell before it, if there is one, takes over its link. -/
theorem Seg.unlink {a b : List α} {x : α} (h : Seg next i (a ++ x :: b) null)
    (hnd : (a ++ x :: b).Nodup) (hnull : null ∉ a) :
    Seg (if a.getLastD null = null then next else Function.update next (a.getLastD null) (next x))
      (if i = x then next x else i) (a ++ b) null := by
  obtain ⟨k, ha, rfl, hb⟩ := seg_append.mp h
  have hdisj := List.disjoint_of_nodup_append hnd
  rcases List.eq_nil_or_concat a with rfl | ⟨a', y, rfl⟩
  · simp only [seg_nil] at ha
    simpa [ha] using hb
  · rw [List.concat_eq_append] at *
    have hlast : (a' ++ [y]).getLastD null = y := by simp
    have hy : y ≠ null := fun h => hnull (by simp [h])
    -- the first element is not the one that is taken out
    have hi : i ≠ k := by
      rintro rfl
      have := ha.head_eq
      cases a' with
      | nil =>
          simp only [List.nil_append, List.headD_cons] at this
          exact hdisj (by simp [this] : i ∈ [] ++ [y]) (by simp)
      | cons c cs =>
          simp only [List.cons_append, List.headD_cons] at this
          exact hdisj (by simp [this] : i ∈ c :: cs ++ [y]) (by simp)
    rw [hlast, if_neg hy, if_neg hi, seg_append]
    refine ⟨next k, ha.redirect (List.Nodup.of_append_left hnd), hb.update fun hmem => ?_⟩
    exact hdisj (by simp) (List.mem_cons_of_mem _ hmem)

end

/-! ### Chains -/

/-- Following `next` from `i` visits `l` and ends at `null`. -/
def IsChain (null : α) (next : α → α) : α → List α → Prop
  | i, [] => i = null
  | i, c :: cs => i = c ∧ i ≠ null ∧ IsChain null next (next c) cs

/-- A chain is a segment that ends at `null` without passing it. The list lemmas are about segments,
and this brings them to chains. -/
theorem isChain_iff_seg {l : List α} :
    IsChain null next i l ↔ Seg next i l null ∧ null ∉ l := by
  induction l generalizing i with
  | nil => simp [IsChain]
  | cons c cs ih =>
      simp only [IsChain, seg_cons, ih, List.mem_cons, not_or]
      constructor
      · rintro ⟨rfl, hi, h, hnull⟩
        exact ⟨⟨rfl, h⟩, Ne.symm hi, hnull⟩
      · rintro ⟨⟨rfl, h⟩, hi, hnull⟩
        exact ⟨rfl, Ne.symm hi, h, hnull⟩

/-- The last cell of a chain has no next one. -/
theorem IsChain.getLastD {l : List α} (h : IsChain null next i l) (hne : l ≠ []) :
    next (l.getLastD null) = null := by
  induction l generalizing i with
  | nil => exact absurd rfl hne
  | cons c cs ih =>
      cases cs with
      | nil => exact h.2.2
      | cons d ds => simpa using ih h.2.2 (by simp)

/-! ### Doubly linked chains -/

/-- The cells `l` are linked both ways, and `first` and `last` are their ends. -/
structure Linked (null : α) (prev next : α → α) (first last : α) (l : List α) : Prop where
  forward : Seg next first l null
  backward : Seg prev last l.reverse null
  nodup : l.Nodup
  null_notMem : null ∉ l

namespace Linked

variable {first last : α} {l : List α}

/-- The empty list with both ends at `null`. -/
theorem nil : Linked null prev next null null [] := ⟨rfl, rfl, List.nodup_nil, List.not_mem_nil⟩

/-- The two link functions matter on the cells of the chain only. -/
theorem congr {prev' next' : α → α} (h : Linked null prev next first last l)
    (hprev : ∀ c ∈ l, prev' c = prev c) (hnext : ∀ c ∈ l, next' c = next c) :
    Linked null prev' next' first last l :=
  ⟨h.forward.congr hnext, h.backward.congr fun c hc => hprev c (List.mem_reverse.mp hc), h.nodup,
    h.null_notMem⟩

/-- The last end is the last element, and `null` for an empty list. -/
theorem last_eq (h : Linked null prev next first last l) : last = l.getLastD null := by
  rw [h.backward.head_eq]
  simp [List.headD_eq_head?_getD, List.getLastD_eq_getLast?]

/-- The link back goes to the element in front, and to `null` from the first one. -/
theorem prev_eq {a b : List α} {x : α} (h : Linked null prev next first last (a ++ x :: b)) :
    prev x = a.getLastD null := by
  have hback := h.backward
  simp only [List.reverse_append, List.reverse_cons, List.append_assoc, List.singleton_append]
    at hback
  obtain ⟨k, -, -, hseg⟩ := seg_append.mp hback
  rw [hseg.head_eq]
  simp [List.headD_eq_head?_getD, List.getLastD_eq_getLast?]

/-- The link on goes to the element behind, and to `null` from the last one. -/
theorem next_eq {a b : List α} {x : α} (h : Linked null prev next first last (a ++ x :: b)) :
    next x = b.headD null := by
  obtain ⟨k, -, -, hseg⟩ := seg_append.mp h.forward
  exact hseg.head_eq

/-- An end that is not `null` is an element. -/
theorem last_mem (h : Linked null prev next first last l) (hne : last ≠ null) : last ∈ l := by
  rw [h.last_eq] at hne ⊢
  rcases List.eq_nil_or_concat l with rfl | ⟨a, y, rfl⟩
  · exact absurd rfl hne
  · simp

/-- A link back that is not `null` stays in the list. -/
theorem prev_mem {a b : List α} {x : α} (h : Linked null prev next first last (a ++ x :: b))
    (hne : prev x ≠ null) : prev x ∈ a := by
  rw [h.prev_eq] at hne ⊢
  rcases List.eq_nil_or_concat a with rfl | ⟨a', y, rfl⟩
  · exact absurd rfl hne
  · simp

/-- A link on that is not `null` stays in the list. -/
theorem next_mem {a b : List α} {x : α} (h : Linked null prev next first last (a ++ x :: b))
    (hne : next x ≠ null) : next x ∈ b := by
  rw [h.next_eq] at hne ⊢
  cases b with
  | nil => exact absurd rfl hne
  | cons c cs => simp

/-- A chain read from its other end. -/
theorem symm (h : Linked null prev next first last l) :
    Linked null next prev last first l.reverse :=
  ⟨h.backward, by rw [List.reverse_reverse]; exact h.forward, List.nodup_reverse.mpr h.nodup,
    by simpa using h.null_notMem⟩

variable [DecidableEq α]

/-- A new cell behind the last one. -/
theorem append {x : α} (h : Linked null prev next first last l) (hx : x ∉ l) (hnull : x ≠ null) :
    Linked null (Function.update prev x last)
      (Function.update (if last = null then next else Function.update next last x) x null)
      (if last = null then x else first) x (l ++ [x]) := by
  have hnd : (l ++ [x]).Nodup := by
    rw [List.nodup_append_comm]
    exact List.nodup_cons.mpr ⟨hx, h.nodup⟩
  refine ⟨?_, ?_, hnd, by simp [h.null_notMem, Ne.symm hnull]⟩
  · have hlast := h.last_eq
    -- in an empty list the new element is the first one too
    rcases List.eq_nil_or_concat l with rfl | ⟨a, y, rfl⟩
    · simp at hlast
      simp [hlast]
    · rw [List.concat_eq_append] at *
      have hy : last = y := by simpa using hlast
      subst hy
      have hne : last ≠ null := fun heq => h.null_notMem (by simp [heq])
      rw [if_neg hne, if_neg hne, seg_append]
      exact ⟨x, (h.forward.redirect h.nodup).update hx, rfl, by simp⟩
  · rw [List.reverse_append, List.reverse_singleton, List.singleton_append]
    refine ⟨rfl, ?_⟩
    rw [Function.update_self]
    exact h.backward.update (by simpa using hx)

/-- A new cell in front of the first one. -/
theorem cons {x : α} (h : Linked null prev next first last l) (hx : x ∉ l) (hnull : x ≠ null) :
    Linked null
      (Function.update (if first = null then prev else Function.update prev first x) x null)
      (Function.update next x first) x (if first = null then x else last) (x :: l) := by
  have happend := h.symm.append (by simpa using hx) hnull
  have hsymm := happend.symm
  rw [List.reverse_append, List.reverse_reverse] at hsymm
  exact hsymm

/-- Taking a cell out: its two neighbours take over its links. -/
theorem remove {a b : List α} {x : α} (h : Linked null prev next first last (a ++ x :: b)) :
    Linked null (if next x = null then prev else Function.update prev (next x) (prev x))
      (if prev x = null then next else Function.update next (prev x) (next x))
      (if first = x then next x else first) (if last = x then prev x else last) (a ++ b) := by
  have hnull := h.null_notMem
  simp only [List.mem_append, List.mem_cons, not_or] at hnull
  obtain ⟨hna, -, hnb⟩ := hnull
  have hsub : (a ++ b).Sublist (a ++ x :: b) :=
    List.Sublist.append_left (List.sublist_cons_self _ _) _
  refine ⟨?_, ?_, hsub.nodup h.nodup, fun hmem => ?_⟩
  · rw [h.prev_eq]
    exact h.forward.unlink h.nodup hna
  · have hback := h.backward
    simp only [List.reverse_append, List.reverse_cons, List.append_assoc, List.singleton_append]
      at hback
    have hnd : (b.reverse ++ x :: a.reverse).Nodup := by
      have := List.nodup_reverse.mpr h.nodup
      simpa using this
    -- backwards the list is linked in the same way
    have hlast : next x = b.reverse.getLastD null := by
      rw [h.next_eq]
      simp [List.headD_eq_head?_getD, List.getLastD_eq_getLast?]
    rw [List.reverse_append, hlast]
    exact hback.unlink hnd (by simpa using hnb)
  · rcases List.mem_append.mp hmem with hmem | hmem
    · exact hna hmem
    · exact hnb hmem

end Linked

end Nucleus.Lib
