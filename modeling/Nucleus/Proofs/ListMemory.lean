import Mathlib.Data.Nat.Find
import Nucleus.Proofs.ObjectList

/-!
# `Nucleus.Proofs.ListMemory`: where the headers of an object list lie

`nu__list_append` asks for `obj_size` bytes and room for a header, and then takes the block for
the object: the header it computes from it lies in front of the block. `ListTrace` is a run
with the headers that its calls read or wrote so far.

* `listTrace_accesses`, `listTrace_touches`: the headers accessed are those in front of the
  returned blocks.
* `listTrace_objects`: the objects lie inside their blocks, and no two nodes overlap.
* `listTrace_inside_iff`: the headers lie inside the blocks only in the runs in which the
  allocator returned no block at all.
-/

set_option autoImplicit false

namespace Nucleus.Proofs

open Nucleus.Lib
open Nucleus.Vm

/-! ### The specification -/

/-- The objects that the appends of a run returned. -/
def returnedObjects (es : List ListEvent) : List Address :=
  es.filterMap fun e =>
    match e with
    | .append obj => if obj = null then none else some obj
    | .remove _ => none

/-- A run from `nu__list_init` with the headers that its calls read or wrote. -/
inductive ListTrace (answer : Nat → Address) (objSize : Nat) :
    List ListEvent → List Address → ListState → Prop where
  | init (headers : Address → ListHeader) :
      ListTrace answer objSize [] [] (listInit objSize headers)
  | append {es : List ListEvent} {hs : List Address} {s : ListState} :
      ListTrace answer objSize es hs s →
      ListTrace answer objSize (es ++ [.append (listAppend answer s).1])
        (hs ++ appendAccesses answer s) (listAppend answer s).2
  | remove {es : List ListEvent} {hs : List Address} {s : ListState} {obj : Address} :
      ListTrace answer objSize es hs s → obj ∈ live es →
      ListTrace answer objSize (es ++ [.remove obj]) (hs ++ removeAccesses s obj)
        (listRemove s obj)

/-- The `n` bytes at `a` lie inside one of the blocks of `size` bytes that the allocator
returned in its first `calls` calls. -/
def InsideBlock (answer : Nat → Address) (size calls : Nat) (a : Address) (n : Nat) : Prop :=
  ∃ i < calls, answer i ≠ null ∧ answer i ≤ a ∧ a + n ≤ answer i + size

/-- The `n` bytes at `a` and the `m` bytes at `b` have no byte in common. -/
def Apart (a : Address) (n : Nat) (b : Address) (m : Nat) : Prop := a + n ≤ b ∨ b + m ≤ a

/-- Every header accessed lies inside one block. -/
def HeadersInside (answer : Nat → Address) (objSize : Nat) (hs : List Address)
    (s : ListState) : Prop :=
  ∀ h ∈ hs, InsideBlock answer (objSize + headerSize) s.calls h headerSize

/-- Every object returned lies inside one block. -/
def ObjectsInside (answer : Nat → Address) (objSize : Nat) (es : List ListEvent)
    (s : ListState) : Prop :=
  ∀ o ∈ returnedObjects es, InsideBlock answer (objSize + headerSize) s.calls o objSize

/-- The headers and objects of different nodes do not overlap. -/
def NodesApart (objSize : Nat) (es : List ListEvent) : Prop :=
  ∀ o ∈ returnedObjects es, ∀ o' ∈ returnedObjects es, o ≠ o' →
    Apart o objSize o' objSize ∧
      Apart (headerFromObject o) headerSize (headerFromObject o') headerSize ∧
      Apart (headerFromObject o) headerSize o' objSize

/-! ### The accesses of one call -/

/-- The header is in front of a block that the allocator returned. -/
def InFront (answer : Nat → Address) (calls : Nat) (h : Address) : Prop :=
  ∃ i < calls, answer i ≠ null ∧ objectFromHeader h = answer i

/-- A header in front of a block stays in front of it. -/
theorem InFront.mono {answer : Nat → Address} {n m : Nat} {h : Address}
    (hfront : InFront answer n h) (hnm : n ≤ m) : InFront answer m h := by
  obtain ⟨i, hi, hans⟩ := hfront
  exact ⟨i, Nat.lt_of_lt_of_le hi hnm, hans⟩

/-- The headers of the list are in front of returned blocks. -/
theorem ListInv.inFront {answer : Nat → Address} {s : ListState} {hs fs : List Address}
    (h : ListInv answer s hs fs) {x : Address} (hx : x ∈ hs) : InFront answer s.calls x :=
  h.origin x (Or.inl hx)

/-- Linking asks for no block. -/
theorem listAppend_calls (answer : Nat → Address) (s : ListState) :
    (listAppend answer s).2.calls = (createObject answer s).2.calls := by
  unfold listAppend
  rcases createObject answer s with ⟨_ | header, s'⟩
  · rfl
  · exact (linkHeader_list header s').2

/-- An append asks for at most one more block. -/
theorem calls_le_listAppend (answer : Nat → Address) (s : ListState) :
    s.calls ≤ (listAppend answer s).2.calls := by
  rw [listAppend_calls]
  unfold createObject
  by_cases hfree : s.list.free = null
  · by_cases hans : answer s.calls = null
    · simp [hfree, hans]
    · simp [hfree, hans]
  · simp [hfree]

/-- A removal asks for no block. -/
theorem listRemove_calls (s : ListState) (obj : Address) : (listRemove s obj).calls = s.calls := by
  unfold listRemove unlinkHeader
  simp only [ListState.modifyHeader]
  split_ifs <;> rfl

/-- `nu__list_append` touches headers in front of returned blocks only: its own one, and the one
of the last object. -/
theorem ListInv.inFront_append {answer : Nat → Address} {size : Nat} {s : ListState}
    {hs fs : List Address} (hanswer : AllocatorContract size answer) (h : ListInv answer s hs fs)
    {x : Address} (hx : x ∈ appendAccesses answer s) :
    InFront answer (Nucleus.Vm.listAppend answer s).2.calls x := by
  rw [listAppend_calls]
  unfold appendAccesses at hx
  -- what `createObject` gives: the list of objects is not changed, and the header is in front
  obtain ⟨hhead, hcalls, hheader⟩ : (createObject answer s).2.list.head = s.list.head ∧
      s.calls ≤ (createObject answer s).2.calls ∧
      ∀ header, (createObject answer s).1 = some header →
        InFront answer (createObject answer s).2.calls header := by
    unfold createObject
    by_cases hfree : s.list.free = null
    · by_cases hans : answer s.calls = null
      · simp [hfree, hans]
      · simp only [hfree, hans, ne_eq, not_true_eq_false, if_false, Option.some.injEq,
          true_and, forall_eq', Nat.le_succ]
        exact ⟨s.calls, Nat.lt_succ_self _, hans,
          objectFromHeader_headerFromObject (hanswer.room _ hans)⟩
    · simp only [ne_eq, hfree, not_false_eq_true, if_true, Option.some.injEq, true_and,
        forall_eq', Nat.le_refl]
      cases fs with
      | nil => exact absurd h.free hfree
      | cons f fs =>
          rw [h.free.1]
          exact h.origin f (Or.inr (by simp))
  have hlast : s.list.head ≠ null → InFront answer s.calls s.list.head := fun hne =>
    h.inFront (h.linked.last_mem hne)
  rcases hc : createObject answer s with ⟨_ | header, s'⟩
  · rw [hc] at hx
    simp at hx
  · rw [hc] at hx hhead hcalls hheader
    simp only at hx hhead hcalls
    have hown := hheader header rfl
    split at hx
    · rename_i hne
      rcases List.mem_cons.mp hx with rfl | hx
      · exact hown
      · obtain rfl := List.mem_singleton.mp hx
        rw [hhead] at hne ⊢
        exact (hlast hne).mono hcalls
    · obtain rfl := List.mem_singleton.mp hx
      exact hown

/-- `nu__list_remove` of a live object touches its header and those of its neighbours. -/
theorem ListInv.inFront_remove {answer : Nat → Address} {s : ListState} {hs fs : List Address}
    (h : ListInv answer s hs fs) {x y : Address} (hx : x ∈ hs)
    (hy : y ∈ removeAccesses s (objectFromHeader x)) : InFront answer s.calls y := by
  obtain ⟨a, b, rfl⟩ := List.append_of_mem hx
  unfold removeAccesses at hy
  rw [headerFromObject_objectFromHeader] at hy
  simp only [List.mem_cons, List.mem_append] at hy
  rcases hy with rfl | hy | hy
  · exact h.inFront hx
  · split at hy
    · rename_i hne
      obtain rfl := List.mem_singleton.mp hy
      exact h.inFront (List.mem_append_left _ (h.linked.prev_mem hne))
    · simp at hy
  · split at hy
    · rename_i hne
      obtain rfl := List.mem_singleton.mp hy
      exact h.inFront (List.mem_append_right _ (List.mem_cons_of_mem _ (h.linked.next_mem hne)))
    · simp at hy

/-- A new block is asked for only when the free chain is empty, and its header is touched. -/
theorem appendAccesses_new {answer : Nat → Address} {s : ListState} {i : Nat}
    (hi : i < (listAppend answer s).2.calls) (hge : s.calls ≤ i) (hans : answer i ≠ null) :
    headerFromObject (answer i) ∈ appendAccesses answer s := by
  rw [listAppend_calls] at hi
  unfold appendAccesses
  unfold createObject at hi ⊢
  by_cases hfree : s.list.free = null
  · simp only [hfree, ne_eq, not_true_eq_false, if_false] at hi ⊢
    -- the call number of the block is the one of this append
    have hcall : ∀ {o : Option Address × ListState}, o.2.calls = s.calls + 1 →
        i < o.2.calls → i = s.calls := by
      intro o ho hlt
      omega
    have hi : i = s.calls := by
      split at hi
      · exact hcall rfl hi
      · exact hcall rfl hi
    subst hi
    simp only [hans, if_false]
    split <;> simp
  · simp only [ne_eq, hfree, not_false_eq_true, if_true] at hi
    exact absurd hi (Nat.not_lt.mpr hge)

/-! ### Runs -/

/-- A run with its accesses is a run. -/
theorem ListTrace.run {answer : Nat → Address} {objSize : Nat} {es : List ListEvent}
    {hs : List Address} {s : ListState} (h : ListTrace answer objSize es hs s) :
    ListRun answer objSize es s := by
  induction h with
  | init headers => exact .init headers
  | append _ ih => exact .append ih
  | remove _ hmem ih => exact .remove ih hmem

/-- Every run has its accesses. -/
theorem ListRun.trace {answer : Nat → Address} {objSize : Nat} {es : List ListEvent}
    {s : ListState} (h : ListRun answer objSize es s) :
    ∃ hs, ListTrace answer objSize es hs s := by
  induction h with
  | init headers => exact ⟨[], .init headers⟩
  | append _ ih =>
      obtain ⟨hs, ih⟩ := ih
      exact ⟨_, .append ih⟩
  | remove _ hmem ih =>
      obtain ⟨hs, ih⟩ := ih
      exact ⟨_, .remove ih hmem⟩

section
variable {answer : Nat → Address} {objSize : Nat} {es : List ListEvent} {hs : List Address}
  {s : ListState}

/-- The header in front of every returned block is touched. -/
theorem listTrace_touches (h : ListTrace answer objSize es hs s) :
    ∀ i < s.calls, answer i ≠ null → headerFromObject (answer i) ∈ hs := by
  induction h with
  | init headers => exact fun i hi => absurd hi (Nat.not_lt_zero i)
  | @append es hs s h ih =>
      intro i hi hans
      rcases Nat.lt_or_ge i s.calls with hlt | hge
      · exact List.mem_append_left _ (ih i hlt hans)
      · exact List.mem_append_right _ (appendAccesses_new hi hge hans)
  | @remove es hs s obj h hmem ih =>
      rw [listRemove_calls]
      exact fun i hi hans => List.mem_append_left _ (ih i hi hans)

/-- No header is touched that is not in front of a returned block. -/
theorem listTrace_accesses (hanswer : AllocatorContract (objSize + headerSize) answer)
    (h : ListTrace answer objSize es hs s) : ∀ x ∈ hs, InFront answer s.calls x := by
  induction h with
  | init headers => exact fun x hx => absurd hx List.not_mem_nil
  | @append es hs s h ih =>
      obtain ⟨lhs, fs, -, -, hinv⟩ := listRun_inv hanswer h.run
      intro x hx
      rcases List.mem_append.mp hx with hx | hx
      · exact (ih x hx).mono (calls_le_listAppend answer s)
      · exact hinv.inFront_append hanswer hx
  | @remove es hs s obj h hmem ih =>
      obtain ⟨lhs, fs, hlive, -, hinv⟩ := listRun_inv hanswer h.run
      rw [listRemove_calls]
      rw [hlive] at hmem
      obtain ⟨x, hx, rfl⟩ := List.mem_map.mp hmem
      intro y hy
      rcases List.mem_append.mp hy with hy | hy
      · exact ih y hy
      · exact hinv.inFront_remove hx hy

/-- The objects returned in a run are the starts of returned blocks. -/
theorem returnedObjects_block (hanswer : AllocatorContract (objSize + headerSize) answer)
    (h : ListTrace answer objSize es hs s) :
    ∀ o ∈ returnedObjects es, ∃ i < s.calls, answer i ≠ null ∧ o = answer i := by
  induction h with
  | init headers => simp [returnedObjects]
  | @append es hs s h ih =>
      obtain ⟨lhs, fs, -, -, hinv⟩ := listRun_inv hanswer h.run
      have hsize : 0 < objSize + headerSize := Nat.add_pos_right _ (by decide)
      -- an object is returned for a header that the list holds from then on
      have hnew : (listAppend answer s).1 ≠ null → ∃ x,
          (listAppend answer s).1 = objectFromHeader x ∧
            InFront answer (listAppend answer s).2.calls x := by
        intro hne
        rcases hinv.listAppend hanswer hsize with
          ⟨x, fs', -, hobj, -, hinv'⟩ | ⟨-, -, hfail, -⟩ | ⟨-, -, x, -, -, hobj, hinv'⟩
        · exact ⟨x, hobj, hinv'.inFront (by simp)⟩
        · exact absurd (by rw [hfail]) hne
        · exact ⟨x, hobj, hinv'.inFront (by simp)⟩
      have hcalls := calls_le_listAppend answer s
      intro o ho
      unfold returnedObjects at ho
      rw [List.filterMap_append, List.mem_append] at ho
      rcases ho with ho | ho
      · obtain ⟨i, hi, hans⟩ := ih o ho
        exact ⟨i, Nat.lt_of_lt_of_le hi hcalls, hans⟩
      · by_cases hnull : (listAppend answer s).1 = null
        · simp [hnull] at ho
        · simp only [List.filterMap_cons, hnull, if_false, List.filterMap_nil,
            List.mem_singleton] at ho
          obtain ⟨x, hobj, i, hi, hans, hx⟩ := hnew hnull
          exact ⟨i, hi, hans, by rw [ho, hobj, hx]⟩
  | @remove es hs s obj h hmem ih =>
      rw [listRemove_calls]
      intro o ho
      unfold returnedObjects at ho
      rw [List.filterMap_append, List.mem_append] at ho
      rcases ho with ho | ho
      · exact ih o ho
      · simp at ho

/-- A block is longer than its object by the size of a header, so the header in front of the
next block overlaps with neither object. -/
theorem nodes_apart {p q n : Nat} (hp : 16 < p) (hq : 16 < q)
    (h : p + (n + 16) ≤ q ∨ q + (n + 16) ≤ p) :
    Apart p n q n ∧ Apart (headerFromObject p) headerSize (headerFromObject q) headerSize ∧
      Apart (headerFromObject p) headerSize q n := by
  show (p + n ≤ q ∨ q + n ≤ p) ∧ (p - 16 + 16 ≤ q - 16 ∨ q - 16 + 16 ≤ p - 16) ∧
    (p - 16 + 16 ≤ q ∨ q + n ≤ p - 16)
  omega

/-- The header is in front of its object. -/
theorem headerFromObject_lt {p : Nat} (h : p ≠ null) : headerFromObject p < p :=
  Nat.sub_lt (Nat.pos_of_ne_zero h) (by decide)

/-- The objects are where they should be: inside their blocks, and apart from the headers and
the objects of the other nodes. -/
theorem listTrace_objects (hanswer : AllocatorContract (objSize + headerSize) answer)
    (h : ListTrace answer objSize es hs s) :
    ObjectsInside answer objSize es s ∧ NodesApart objSize es := by
  have hblock := returnedObjects_block hanswer h
  refine ⟨fun o ho => ?_, fun o ho o' ho' hne => ?_⟩
  · obtain ⟨i, hi, hans, rfl⟩ := hblock o ho
    exact ⟨i, hi, hans, Nat.le_refl _, Nat.add_le_add_left (Nat.le_add_right _ _) _⟩
  · obtain ⟨i, hi, hans, rfl⟩ := hblock o ho
    obtain ⟨j, hj, hans', rfl⟩ := hblock o' ho'
    have hapart : answer i + (objSize + headerSize) ≤ answer j ∨
        answer j + (objSize + headerSize) ≤ answer i := by
      rcases Nat.lt_trichotomy i j with hij | rfl | hij
      · exact (hanswer.disjoint j i hij hans' hans).symm
      · exact absurd rfl hne
      · exact hanswer.disjoint i j hij hans hans'
    exact nodes_apart (hanswer.room i hans) (hanswer.room j hans') hapart

/-- No header is inside a block as soon as there is a block: the one in front of the lowest
block is below all of them. -/
theorem exists_header_outside (h : ∃ i < s.calls, answer i ≠ null)
    (hall : ∀ i < s.calls, answer i ≠ null → headerFromObject (answer i) ∈ hs) :
    ∃ x ∈ hs, ¬ InsideBlock answer (objSize + headerSize) s.calls x headerSize := by
  have hex : ∃ p, ∃ i < s.calls, answer i ≠ null ∧ answer i = p := by
    obtain ⟨i, hi, hans⟩ := h
    exact ⟨_, i, hi, hans, rfl⟩
  classical
  obtain ⟨i, hi, hans, hlow⟩ := Nat.find_spec hex
  refine ⟨_, hall i hi hans, fun ⟨j, hj, hans', hle, _⟩ => ?_⟩
  have hmin : answer i ≤ answer j := hlow ▸ Nat.find_min' hex ⟨j, hj, hans', rfl⟩
  exact absurd (Nat.le_trans hmin hle) (Nat.not_le.mpr (headerFromObject_lt hans))

/-- While the allocator returns no block, the list stays empty and no header is touched. -/
theorem listTrace_noBlock (h : ListTrace answer objSize es hs s)
    (hnone : ∀ i < s.calls, answer i = null) :
    hs = [] ∧ returnedObjects es = [] ∧ live es = [] ∧ s.list.free = null := by
  induction h with
  | init headers => exact ⟨rfl, rfl, rfl, rfl⟩
  | @append es hs s h ih =>
      obtain ⟨hhs, hobjs, hlive, hfree⟩ := ih fun i hi =>
        hnone i (Nat.lt_of_lt_of_le hi (calls_le_listAppend answer s))
      -- the free chain is empty, so the append calls the allocator, which fails
      have hcalls : s.calls < (listAppend answer s).2.calls := by
        rw [listAppend_calls, createObject]
        by_cases hans : answer s.calls = null
        · simp [hfree, hans]
        · simp [hfree, hans]
      have hans : answer s.calls = null := hnone _ hcalls
      have hcreate : createObject answer s = (none, { s with calls := s.calls + 1 }) := by
        simp [createObject, hfree, hans]
      have happend : listAppend answer s = (null, { s with calls := s.calls + 1 }) := by
        rw [listAppend, hcreate]
      have haccess : appendAccesses answer s = [] := by
        rw [appendAccesses, hcreate]
      rw [happend, haccess, hhs]
      refine ⟨rfl, ?_, ?_, hfree⟩
      · rw [returnedObjects, List.filterMap_append, ← returnedObjects, hobjs]
        simp
      · rw [live_snoc, liveStep, if_pos rfl, hlive]
  | @remove es hs s obj h hmem ih =>
      obtain ⟨-, -, hlive, -⟩ := ih (by rwa [listRemove_calls] at hnone)
      rw [hlive] at hmem
      exact absurd hmem List.not_mem_nil

/-- What the layout of the list asks for holds of a run exactly when the allocator returned no
block in it: as soon as it returned one, the header that `nu__list_append` computes for it, in
front of the block, is touched. -/
theorem listTrace_inside_iff (h : ListTrace answer objSize es hs s) :
    (HeadersInside answer objSize hs s ∧ ObjectsInside answer objSize es s ∧
        NodesApart objSize es) ↔
      ∀ i < s.calls, answer i = null := by
  constructor
  · rintro ⟨hinside, -, -⟩
    intro i hi
    by_contra hans
    obtain ⟨x, hx, houtside⟩ := exists_header_outside ⟨i, hi, hans⟩ (listTrace_touches h)
    exact houtside (hinside x hx)
  · intro hnone
    obtain ⟨hhs, hobjs, -, -⟩ := listTrace_noBlock h hnone
    subst hhs
    refine ⟨fun x hx => ?_, fun o ho => ?_, fun o ho => ?_⟩
    · exact absurd hx List.not_mem_nil
    · rw [hobjs] at ho
      exact absurd ho List.not_mem_nil
    · rw [hobjs] at ho
      exact absurd ho List.not_mem_nil

end

/-- The run of one append with an allocator that returns the block at 64: the header is at 48. -/
theorem listTrace_inside_iff_thirdFails :
    ∃ s, ListTrace thirdFails 4 [.append 64] [48] s ∧
      ((HeadersInside thirdFails 4 [48] s ∧ ObjectsInside thirdFails 4 [.append 64] s ∧
        NodesApart 4 [.append 64]) ↔ ∀ i < s.calls, thirdFails i = null) := by
  have hrun : ListTrace thirdFails 4 [.append 64] [48] _ :=
    .append (.init fun _ => ⟨null, null⟩)
  exact ⟨_, hrun, listTrace_inside_iff hrun⟩

/-- The first object of a list has its header outside of its block. -/
theorem listTrace_header_outside :
    ∃ s, ListTrace thirdFails 4 [.append 64] [48] s ∧ ¬ HeadersInside thirdFails 4 [48] s := by
  have hrun : ListTrace thirdFails 4 [.append 64] [48] _ :=
    .append (.init fun _ => ⟨null, null⟩)
  refine ⟨_, hrun, fun hinside => ?_⟩
  obtain ⟨i, hi, -, hle, -⟩ := hinside 48 (by simp)
  obtain rfl : i = 0 := Nat.lt_one_iff.mp hi
  exact absurd hle (by decide)

end Nucleus.Proofs
