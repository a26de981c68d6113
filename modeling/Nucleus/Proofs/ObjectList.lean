import Mathlib.Data.List.Perm.Basic
import Nucleus.Lib.Chain
import Nucleus.Vm.ObjectList

/-!
# `Nucleus.Proofs.ObjectList`: the object list is a sequence

A run of a list is the list of its calls with their results (`ListEvent`), and `live` and
`freed` read off it which objects are in the list and which are on the free chain.
`ListInv` is the invariant of a run: the headers of the live objects are linked both ways, and
the headers of the freed ones are the free chain. `listRun_isSequence` is what a caller sees.
-/

set_option autoImplicit false

namespace Nucleus.Proofs

open Nucleus.Lib
open Nucleus.Vm

/-! ### The specification -/

/-- A call with its result: `append` returned the object, `null` if it failed. -/
inductive ListEvent where
  | append (obj : Address)
  | remove (obj : Address)
  deriving DecidableEq, Repr

/-- The objects in the list, in the order of their appending. -/
def liveStep (live : List Address) : ListEvent → List Address
  | .append obj => if obj = null then live else live ++ [obj]
  | .remove obj => live.erase obj

/-- The objects removed and not yet reused, the last one first. -/
def freedStep (freed : List Address) : ListEvent → List Address
  | .append obj => freed.erase obj
  | .remove obj => obj :: freed

/-- The objects appended and not yet removed. -/
def live (es : List ListEvent) : List Address := es.foldl liveStep []

/-- The objects removed and not yet reused. -/
def freed (es : List ListEvent) : List Address := es.foldl freedStep []

/-- The live objects behind one more event. -/
@[simp] theorem live_snoc (es : List ListEvent) (e : ListEvent) :
    live (es ++ [e]) = liveStep (live es) e := by simp [live]

/-- The freed objects behind one more event. -/
@[simp] theorem freed_snoc (es : List ListEvent) (e : ListEvent) :
    freed (es ++ [e]) = freedStep (freed es) e := by simp [freed]

/-- The allocator may fail at any call. When it does not, the block of `size` bytes that it
returns is apart from all earlier ones, and there is room for a header in front of it. -/
structure AllocatorContract (size : Nat) (answer : Nat → Address) : Prop where
  room : ∀ i, answer i ≠ null → headerSize < answer i
  disjoint : ∀ i j, j < i → answer i ≠ null → answer j ≠ null →
    answer i + size ≤ answer j ∨ answer j + size ≤ answer i

/-- A run from `nu__list_init`: `remove` is called on objects in the list only. -/
inductive ListRun (answer : Nat → Address) (objSize : Nat) : List ListEvent → ListState → Prop where
  | init (headers : Address → ListHeader) : ListRun answer objSize [] (listInit objSize headers)
  | append {es : List ListEvent} {s : ListState} :
      ListRun answer objSize es s →
      ListRun answer objSize (es ++ [.append (listAppend answer s).1]) (listAppend answer s).2
  | remove {es : List ListEvent} {s : ListState} {obj : Address} :
      ListRun answer objSize es s → obj ∈ live es →
      ListRun answer objSize (es ++ [.remove obj]) (listRemove s obj)

/-- The `prev` link of a header. -/
def prevOf (s : ListState) (header : Address) : Address := (s.headers header).prev

/-- The `next` link of a header. -/
def nextOf (s : ListState) (header : Address) : Address := (s.headers header).next

/-- The list holds the sequence `live`, and the free chain the objects `freed`. -/
structure IsSequence (s : ListState) (live freed : List Address) : Prop where
  /-- `nu__list_first` and `nu__list_next` visit the objects in order. -/
  walk : IsChain null (listNext s) (listFirst s) live
  nodup : live.Nodup
  /-- The `prev` links from `head` visit them the other way round. -/
  backward : IsChain null (prevOf s) s.list.head (live.map headerFromObject).reverse
  head : s.list.head = (live.map headerFromObject).getLastD null
  free : IsChain null (nextOf s) s.list.free (freed.map headerFromObject)
  freed_nodup : freed.Nodup
  disjoint : ∀ obj ∈ freed, obj ∉ live

/-! ### The operations on the links -/

/-- A link on that is written. -/
theorem nextOf_modifyHeader_next (s : ListState) (a v : Address) :
    nextOf (s.modifyHeader a fun h => { h with next := v }) = Function.update (nextOf s) a v := by
  funext b
  by_cases hb : b = a
  · subst hb
    simp [nextOf, ListState.modifyHeader]
  · simp [nextOf, ListState.modifyHeader, hb]

/-- Writing a link on leaves the links back. -/
theorem prevOf_modifyHeader_next (s : ListState) (a v : Address) :
    prevOf (s.modifyHeader a fun h => { h with next := v }) = prevOf s := by
  funext b
  by_cases hb : b = a
  · subst hb
    simp [prevOf, ListState.modifyHeader]
  · simp [prevOf, ListState.modifyHeader, hb]

/-- Writing a link back leaves the links on. -/
theorem nextOf_modifyHeader_prev (s : ListState) (a v : Address) :
    nextOf (s.modifyHeader a fun h => { h with prev := v }) = nextOf s := by
  funext b
  by_cases hb : b = a
  · subst hb
    simp [nextOf, ListState.modifyHeader]
  · simp [nextOf, ListState.modifyHeader, hb]

/-- A link back that is written. -/
theorem prevOf_modifyHeader_prev (s : ListState) (a v : Address) :
    prevOf (s.modifyHeader a fun h => { h with prev := v }) = Function.update (prevOf s) a v := by
  funext b
  by_cases hb : b = a
  · subst hb
    simp [prevOf, ListState.modifyHeader]
  · simp [prevOf, ListState.modifyHeader, hb]

/-- Linking a header makes the updates of `Linked.append`. -/
theorem linkHeader_links (header : Address) (s : ListState) :
    prevOf (linkHeader header s) = Function.update (prevOf s) header s.list.head ∧
      nextOf (linkHeader header s) = Function.update
        (if s.list.head = null then nextOf s
          else Function.update (nextOf s) s.list.head header) header null := by
  unfold linkHeader
  -- in an empty list no header gets a new next one
  by_cases hhead : s.list.head = null
  · simp only [hhead, ne_eq, not_true_eq_false, if_false, if_true]
    constructor
    · exact (prevOf_modifyHeader_next _ header null).trans (prevOf_modifyHeader_prev s header null)
    · refine (nextOf_modifyHeader_next _ header null).trans (congrArg (Function.update · _ _) ?_)
      exact nextOf_modifyHeader_prev s header null
  · simp only [ne_eq, hhead, not_false_eq_true, if_true, if_false]
    constructor
    · refine (prevOf_modifyHeader_next _ header null).trans ?_
      refine (prevOf_modifyHeader_prev _ header _).trans (congrArg (Function.update · _ _) ?_)
      exact prevOf_modifyHeader_next s s.list.head header
    · refine (nextOf_modifyHeader_next _ header null).trans (congrArg (Function.update · _ _) ?_)
      refine (nextOf_modifyHeader_prev _ header _).trans ?_
      exact nextOf_modifyHeader_next s s.list.head header

/-- The ends of the list behind a new header. -/
theorem linkHeader_list (header : Address) (s : ListState) :
    (linkHeader header s).list =
      { s.list with
          first := if s.list.head = null then header else s.list.first
          head := header } ∧
      (linkHeader header s).calls = s.calls := by
  unfold linkHeader
  by_cases hhead : s.list.head = null
  · simp [hhead, ListState.modifyHeader]
  · simp [hhead, ListState.modifyHeader]

/-- Unlinking a header makes the updates of `Linked.remove`. -/
theorem unlinkHeader_links {header : Address} {s : ListState} (hprev : prevOf s header ≠ header)
    (hnext : nextOf s header ≠ header) :
    prevOf (unlinkHeader header s) =
        (if nextOf s header = null then prevOf s
          else Function.update (prevOf s) (nextOf s header) (prevOf s header)) ∧
      nextOf (unlinkHeader header s) =
        (if prevOf s header = null then nextOf s
          else Function.update (nextOf s) (prevOf s header) (nextOf s header)) ∧
      (unlinkHeader header s).list =
        { s.list with
            first := if s.list.first = header then nextOf s header else s.list.first
            head := if s.list.head = header then prevOf s header else s.list.head } ∧
      (unlinkHeader header s).calls = s.calls := by
  -- the two stores, one after the other
  obtain ⟨s₁, hs₁⟩ : ∃ s₁, s₁ = if (s.headers header).prev ≠ null then
      s.modifyHeader (s.headers header).prev fun h => { h with next := (s.headers header).next }
    else s := ⟨_, rfl⟩
  obtain ⟨s₂, hs₂⟩ : ∃ s₂, s₂ = if (s₁.headers header).next ≠ null then
      s₁.modifyHeader (s₁.headers header).next fun h => { h with prev := (s₁.headers header).prev }
    else s₁ := ⟨_, rfl⟩
  have h₁ : prevOf s₁ = prevOf s ∧
      nextOf s₁ = (if prevOf s header = null then nextOf s
        else Function.update (nextOf s) (prevOf s header) (nextOf s header)) ∧
      s₁.list = s.list ∧ s₁.calls = s.calls := by
    rw [hs₁]
    by_cases hp : prevOf s header = null
    · have hp' : ¬ (s.headers header).prev ≠ null := not_not.mpr hp
      rw [if_neg hp', if_pos hp]
      exact ⟨rfl, rfl, rfl, rfl⟩
    · have hp' : (s.headers header).prev ≠ null := hp
      rw [if_pos hp', if_neg hp]
      exact ⟨prevOf_modifyHeader_next _ _ _, nextOf_modifyHeader_next _ _ _, rfl, rfl⟩
  obtain ⟨hprev₁, hnext₁, hlist₁, hcalls₁⟩ := h₁
  have hself : nextOf s₁ header = nextOf s header := by
    rw [hnext₁]
    split
    · rfl
    · exact Function.update_of_ne (Ne.symm hprev) _ _
  have h₂ : prevOf s₂ = (if nextOf s header = null then prevOf s
        else Function.update (prevOf s) (nextOf s header) (prevOf s header)) ∧
      nextOf s₂ = nextOf s₁ ∧ s₂.list = s.list ∧ s₂.calls = s.calls := by
    rw [hs₂]
    by_cases hn : nextOf s header = null
    · have hn' : ¬ (s₁.headers header).next ≠ null := not_not.mpr (hself.trans hn)
      rw [if_neg hn', if_pos hn]
      exact ⟨hprev₁, rfl, hlist₁, hcalls₁⟩
    · have hn' : (s₁.headers header).next ≠ null := fun h => hn (hself.symm.trans h)
      rw [if_pos hn', if_neg hn]
      refine ⟨?_, nextOf_modifyHeader_prev _ _ _, hlist₁, hcalls₁⟩
      rw [prevOf_modifyHeader_prev, hprev₁]
      congr 1
      · exact congrFun hprev₁ header
  obtain ⟨hprev₂, hnext₂, hlist₂, hcalls₂⟩ := h₂
  have hprevSelf : prevOf s₂ header = prevOf s header := by
    rw [hprev₂]
    split
    · rfl
    · exact Function.update_of_ne (Ne.symm hnext) _ _
  have hnextSelf : nextOf s₂ header = nextOf s header := (congrFun hnext₂ header).trans hself
  have hunlink : unlinkHeader header s =
      (let s := if s₂.list.head = header then
          { s₂ with list := { s₂.list with head := (s₂.headers header).prev } }
        else s₂
      if s.list.first = header then
        { s with list := { s.list with first := (s.headers header).next } }
      else s) := by
    rw [hs₂, hs₁]
    rfl
  rw [hunlink, ← hprev₂, ← hnext₁, ← hnext₂, ← hprevSelf, ← hnextSelf, ← hlist₂, ← hcalls₂]
  by_cases hh : s₂.list.head = header
  · by_cases hf : s₂.list.first = header
    · simp only [hh, hf, if_true]
      exact ⟨rfl, rfl, rfl, trivial⟩
    · simp only [hh, hf, if_true, if_false]
      exact ⟨rfl, rfl, rfl, trivial⟩
  · by_cases hf : s₂.list.first = header
    · simp only [hh, hf, if_true, if_false]
      exact ⟨rfl, rfl, rfl, trivial⟩
    · simp only [hh, hf, if_false, and_self]

/-- The header of an object that was made from it. -/
theorem headerFromObject_objectFromHeader (h : Nat) :
    headerFromObject (objectFromHeader h) = h := Nat.add_sub_cancel h headerSize

/-- Different headers have different objects. -/
theorem objectFromHeader_injective : Function.Injective objectFromHeader := fun a b hab => by
  rw [← headerFromObject_objectFromHeader a, hab, headerFromObject_objectFromHeader]

/-- An object stands behind its header, so it is not null. -/
theorem objectFromHeader_ne_null (h : Nat) : objectFromHeader h ≠ null := Nat.succ_ne_zero _

/-- The object of a header that was made from it. -/
theorem objectFromHeader_headerFromObject {o : Nat} (h : headerSize < o) :
    objectFromHeader (headerFromObject o) = o := Nat.sub_add_cancel (Nat.le_of_lt h)

/-- The header of an object of a block is not null. -/
theorem headerFromObject_ne_null {o : Nat} (h : headerSize < o) : headerFromObject o ≠ null :=
  Nat.sub_ne_zero_of_lt h

/-- The allocator returns no block twice. -/
theorem AllocatorContract.ne {size : Nat} {answer : Nat → Address}
    (h : AllocatorContract size answer) (hsize : 0 < size) {i j : Nat} (hij : j < i)
    (hi : answer i ≠ null) (hj : answer j ≠ null) : answer i ≠ answer j := by
  intro heq
  have hdisj : ∀ {p : Nat}, ¬ (p + size ≤ p ∨ p + size ≤ p) := by omega
  exact hdisj (heq ▸ h.disjoint i j hij hi hj)

/-! ### The invariant -/

/-- The headers `hs` are the list of objects, the headers `fs` the free chain, and each of them
stands in front of a block that the allocator returned. -/
structure ListInv (answer : Nat → Address) (s : ListState) (hs fs : List Address) : Prop where
  linked : Linked null (prevOf s) (nextOf s) s.list.first s.list.head hs
  free : Seg (nextOf s) s.list.free fs null
  null_notMem : null ∉ fs
  nodup : fs.Nodup
  disjoint : ∀ h ∈ fs, h ∉ hs
  origin : ∀ h, h ∈ hs ∨ h ∈ fs → ∃ i < s.calls, answer i ≠ null ∧ objectFromHeader h = answer i

/-- A new list is empty. -/
theorem listInv_init (answer : Nat → Address) (objSize : Nat) (headers : Address → ListHeader) :
    ListInv answer (listInit objSize headers) [] [] where
  linked := Linked.nil
  free := rfl
  null_notMem := List.not_mem_nil
  nodup := List.nodup_nil
  disjoint := by simp
  origin := by simp

/-- Linking a header that is on neither chain. -/
theorem ListInv.linkHeader {answer : Nat → Address} {s : ListState} {hs fs : List Address}
    {x : Address} (h : ListInv answer s hs fs) (hhs : x ∉ hs) (hfs : x ∉ fs) (hnull : x ≠ null)
    (horigin : ∃ i < s.calls, answer i ≠ null ∧ objectFromHeader x = answer i) :
    ListInv answer (linkHeader x s) (hs ++ [x]) fs := by
  obtain ⟨hprev, hnext⟩ := linkHeader_links x s
  obtain ⟨hlist, hcalls⟩ := linkHeader_list x s
  refine ⟨?_, ?_, h.null_notMem, h.nodup, fun c hc hmem => ?_, fun c hc => ?_⟩
  · rw [hprev, hnext, hlist]
    exact h.linked.append hhs hnull
  · rw [hnext, hlist]
    refine h.free.congr fun c hc => ?_
    rw [Function.update_of_ne (by rintro rfl; exact hfs hc)]
    -- the old head is live, so it is on no free chain
    by_cases hhead : s.list.head = null
    · rw [if_pos hhead]
    · rw [if_neg hhead, Function.update_of_ne]
      rintro rfl
      exact h.disjoint _ hc (h.linked.last_mem hhead)
  · rcases List.mem_append.mp hmem with hmem | hmem
    · exact h.disjoint c hc hmem
    · obtain rfl := List.mem_singleton.mp hmem
      exact hfs hc
  · rw [hcalls]
    simp only [List.mem_append, List.mem_singleton] at hc
    rcases hc with (hc | rfl) | hc
    · exact h.origin c (Or.inl hc)
    · exact horigin
    · exact h.origin c (Or.inr hc)

/-- `nu__list_append` reuses the last removed object if there is one. Else it asks the
allocator, and links the new object unless the allocator fails. -/
theorem ListInv.listAppend {answer : Nat → Address} {size : Nat} {s : ListState}
    {hs fs : List Address} (hanswer : AllocatorContract size answer) (hsize : 0 < size)
    (h : ListInv answer s hs fs) :
    (∃ x fs', fs = x :: fs' ∧ (listAppend answer s).1 = objectFromHeader x ∧
        (listAppend answer s).2.calls = s.calls ∧
        ListInv answer (listAppend answer s).2 (hs ++ [x]) fs') ∨
      (fs = [] ∧ answer s.calls = null ∧
        listAppend answer s = (null, { s with calls := s.calls + 1 }) ∧
        ListInv answer (listAppend answer s).2 hs fs) ∨
      (fs = [] ∧ answer s.calls ≠ null ∧ ∃ x, objectFromHeader x = answer s.calls ∧ x ∉ hs ∧
        (listAppend answer s).1 = objectFromHeader x ∧
        ListInv answer (listAppend answer s).2 (hs ++ [x]) fs) := by
  unfold Nucleus.Vm.listAppend createObject
  -- a freed object is taken first, and the allocator is only asked when there is none
  cases fs with
  | cons x fs =>
      obtain ⟨hfree, hseg⟩ := h.free
      have hx : x ≠ null := fun hx => h.null_notMem (by simp [hx])
      obtain ⟨hxfs, hnd⟩ := List.nodup_cons.mp h.nodup
      rw [hfree]
      simp only [ne_eq, hx, not_false_eq_true, if_true]
      have hinv : ListInv answer { s with list := { s.list with free := (s.headers x).next } }
          hs fs :=
        ⟨h.linked, hseg, fun hmem => h.null_notMem (List.mem_cons_of_mem _ hmem), hnd,
          fun c hc => h.disjoint c (List.mem_cons_of_mem _ hc),
          fun c hc => h.origin c (hc.imp_right (List.mem_cons_of_mem _))⟩
      exact Or.inl ⟨x, fs, rfl, rfl, (linkHeader_list x _).2,
        hinv.linkHeader (h.disjoint x (by simp)) hxfs hx (h.origin x (by simp))⟩
  | nil =>
      have hfree : s.list.free = null := h.free
      have hinv : ListInv answer { s with calls := s.calls + 1 } hs [] :=
        ⟨h.linked, h.free, h.null_notMem, h.nodup, h.disjoint, fun c hc => by
          obtain ⟨i, hi, hans⟩ := h.origin c hc
          exact ⟨i, Nat.lt_succ_of_lt hi, hans⟩⟩
      simp only [hfree, ne_eq, not_true_eq_false, if_false]
      -- the allocator may answer with a null pointer
      by_cases hans : answer s.calls = null
      · simp only [hans, if_true]
        exact Or.inr (Or.inl ⟨trivial, trivial, trivial, hinv⟩)
      · simp only [hans, if_false]
        have hroom := hanswer.room s.calls hans
        have hobj := objectFromHeader_headerFromObject hroom
        -- an object that the allocator gave before is at another address
        have hx : headerFromObject (answer s.calls) ∉ hs := by
          intro hmem
          obtain ⟨j, hj, hjans, heq⟩ := h.origin _ (Or.inl hmem)
          exact hanswer.ne hsize hj hans hjans (hobj.symm.trans heq)
        refine Or.inr (Or.inr ⟨trivial, not_false, _, hobj, hx, rfl, ?_⟩)
        exact hinv.linkHeader hx List.not_mem_nil (headerFromObject_ne_null hroom)
          ⟨s.calls, Nat.lt_succ_self _, hans, hobj⟩

/-- `nu__list_remove` moves a header to the front of the free chain. -/
theorem ListInv.listRemove {answer : Nat → Address} {s : ListState} {a b fs : List Address}
    {x : Address} (h : ListInv answer s (a ++ x :: b) fs) :
    ListInv answer (listRemove s (objectFromHeader x)) (a ++ b) (x :: fs) := by
  have hnd := h.linked.nodup
  have hmem : x ∈ a ++ x :: b := by simp
  have hxab : x ∉ a ++ b := by
    have := List.nodup_middle.mp hnd
    exact (List.nodup_cons.mp this).1
  have hxnull : x ≠ null := fun hx => h.linked.null_notMem (hx ▸ hmem)
  have hxfs : x ∉ fs := fun hfs => h.disjoint x hfs hmem
  have hprev : prevOf s x ≠ x := by
    intro heq
    have := h.linked.prev_mem (by rw [heq]; exact hxnull)
    rw [heq] at this
    exact hxab (List.mem_append_left _ this)
  have hnext : nextOf s x ≠ x := by
    intro heq
    have := h.linked.next_mem (by rw [heq]; exact hxnull)
    rw [heq] at this
    exact hxab (List.mem_append_right _ this)
  obtain ⟨hprevOf, hnextOf, hlist, hcalls⟩ := unlinkHeader_links hprev hnext
  have hheader := headerFromObject_objectFromHeader x
  -- the last store writes the removed header only
  have hstore : ∀ c ≠ x, prevOf (Nucleus.Vm.listRemove s (objectFromHeader x)) c =
      prevOf (unlinkHeader x s) c ∧
      nextOf (Nucleus.Vm.listRemove s (objectFromHeader x)) c = nextOf (unlinkHeader x s) c := by
    intro c hc
    unfold Nucleus.Vm.listRemove
    rw [hheader]
    simp [prevOf, nextOf, ListState.modifyHeader, hc]
  have hself : nextOf (Nucleus.Vm.listRemove s (objectFromHeader x)) x = s.list.free := by
    unfold Nucleus.Vm.listRemove
    rw [hheader]
    simp [nextOf, ListState.modifyHeader, hlist]
  have hfields : (Nucleus.Vm.listRemove s (objectFromHeader x)).list =
      { (unlinkHeader x s).list with free := x } ∧
      (Nucleus.Vm.listRemove s (objectFromHeader x)).calls = s.calls := by
    unfold Nucleus.Vm.listRemove
    rw [hheader]
    exact ⟨rfl, hcalls⟩
  refine ⟨?_, ⟨?_, ?_⟩, ?_, List.nodup_cons.mpr ⟨hxfs, h.nodup⟩, ?_, ?_⟩
  · have hlinked := h.linked.remove
    rw [← hprevOf, ← hnextOf] at hlinked
    rw [hfields.1, hlist]
    have hne : ∀ c ∈ a ++ b, c ≠ x := fun c hc hcx => hxab (hcx ▸ hc)
    exact hlinked.congr (fun c hc => (hstore c (hne c hc)).1) fun c hc => (hstore c (hne c hc)).2
  · rw [hfields.1]
  · rw [hself]
    refine h.free.congr fun c hc => ?_
    have hcx : c ≠ x := fun hcx => hxfs (hcx ▸ hc)
    rw [(hstore c hcx).2, hnextOf]
    split
    · rfl
    · rename_i hp
      rw [Function.update_of_ne]
      rintro rfl
      exact h.disjoint _ hc (List.mem_append_left _ (h.linked.prev_mem hp))
  · simp only [List.mem_cons, not_or]
    exact ⟨Ne.symm hxnull, h.null_notMem⟩
  · intro c hc hcab
    rcases List.mem_cons.mp hc with rfl | hc
    · exact hxab hcab
    · refine h.disjoint c hc ?_
      rcases List.mem_append.mp hcab with hcab | hcab
      · exact List.mem_append_left _ hcab
      · exact List.mem_append_right _ (List.mem_cons_of_mem _ hcab)
  · intro c hc
    rw [hfields.2]
    simp only [List.mem_append, List.mem_cons] at hc
    refine h.origin c ?_
    simp only [List.mem_append, List.mem_cons]
    rcases hc with (hc | hc) | rfl | hc
    · exact Or.inl (Or.inl hc)
    · exact Or.inl (Or.inr (Or.inr hc))
    · exact Or.inl (Or.inr (Or.inl rfl))
    · exact Or.inr hc

/-! ### Runs -/

/-- The objects of a run are those of two lists of headers in the invariant. -/
theorem listRun_inv {answer : Nat → Address} {objSize : Nat} {es : List ListEvent}
    {s : ListState} (hanswer : AllocatorContract (objSize + headerSize) answer)
    (h : ListRun answer objSize es s) :
    ∃ hs fs, live es = hs.map objectFromHeader ∧ freed es = fs.map objectFromHeader ∧
      ListInv answer s hs fs := by
  have hinj := objectFromHeader_injective
  have hsize : 0 < objSize + headerSize := Nat.add_pos_right _ (by decide)
  have hne := objectFromHeader_ne_null
  -- on the run: both chains hold the headers of the objects that the events leave there
  induction h with
  | init headers => exact ⟨[], [], rfl, rfl, listInv_init answer objSize headers⟩
  | append _ ih =>
      obtain ⟨hs, fs, hlive, hfreed, hinv⟩ := ih
      rcases hinv.listAppend hanswer hsize with
        ⟨x, fs', rfl, hobj, -, hinv'⟩ | ⟨rfl, -, hfail, hinv'⟩ | ⟨rfl, -, x, -, -, hobj, hinv'⟩
      · refine ⟨hs ++ [x], fs', ?_, ?_, hinv'⟩
        · rw [live_snoc, hobj, liveStep, if_neg (hne x), hlive]
          simp
        · rw [freed_snoc, hobj, freedStep, hfreed]
          simp
      · refine ⟨hs, [], ?_, ?_, hinv'⟩
        · rw [live_snoc, hfail, liveStep, if_pos rfl, hlive]
        · rw [freed_snoc, freedStep, hfreed]
          simp
      · refine ⟨hs ++ [x], [], ?_, ?_, hinv'⟩
        · rw [live_snoc, hobj, liveStep, if_neg (hne x), hlive]
          simp
        · rw [freed_snoc, freedStep, hfreed]
          simp
  | @remove es s obj _ hmem ih =>
      obtain ⟨hs, fs, hlive, hfreed, hinv⟩ := ih
      rw [hlive] at hmem
      obtain ⟨x, hx, rfl⟩ := List.mem_map.mp hmem
      obtain ⟨a, b, rfl⟩ := List.append_of_mem hx
      refine ⟨a ++ b, x :: fs, ?_, ?_, hinv.listRemove⟩
      -- the header is in the chain once, so the object before the others is not the removed one
      · have hxa : x ∉ a := by
          have := (List.nodup_cons.mp (List.nodup_middle.mp hinv.linked.nodup)).1
          exact fun hmem => this (List.mem_append_left _ hmem)
        rw [live_snoc, liveStep, hlive, ← List.map_erase hinj, List.erase_append_right _ hxa,
          List.erase_cons_head]
      · rw [freed_snoc, freedStep, hfreed]
        rfl

/-- What the invariant says of the calls a user makes. -/
theorem ListInv.isSequence {answer : Nat → Address} {s : ListState} {hs fs : List Address}
    (h : ListInv answer s hs fs) :
    IsSequence s (hs.map objectFromHeader) (fs.map objectFromHeader) := by
  -- headers and objects stand for each other
  have hback : ∀ l : List Address, (l.map objectFromHeader).map headerFromObject = l := by
    intro l
    rw [List.map_map]
    exact List.map_id'' headerFromObject_objectFromHeader l
  have hinj := objectFromHeader_injective
  refine ⟨?_, h.linked.nodup.map hinj, ?_, ?_, ?_, h.nodup.map hinj, ?_⟩
  · -- an object's next one belongs to the next header
    have hwalk : ∀ {i : Address} {l : List Address}, IsChain null (nextOf s) i l →
        IsChain null (listNext s) (if i ≠ null then objectFromHeader i else null)
          (l.map objectFromHeader) := by
      intro i l hl
      induction l generalizing i with
      | nil =>
          obtain rfl : i = null := hl
          rfl
      | cons c cs ih =>
          obtain ⟨rfl, hi, hl⟩ := hl
          refine ⟨if_pos hi, by rw [if_pos hi]; exact objectFromHeader_ne_null i, ?_⟩
          have := ih hl
          unfold listNext
          rw [headerFromObject_objectFromHeader]
          exact this
    exact hwalk (isChain_iff_seg.mpr ⟨h.linked.forward, h.linked.null_notMem⟩)
  · rw [hback]
    exact isChain_iff_seg.mpr ⟨h.linked.backward, by simpa using h.linked.null_notMem⟩
  · rw [hback]
    exact h.linked.last_eq
  · rw [hback]
    exact isChain_iff_seg.mpr ⟨h.free, h.null_notMem⟩
  · intro obj hobj hmem
    obtain ⟨f, hf, rfl⟩ := List.mem_map.mp hobj
    rw [List.mem_map_of_injective hinj] at hmem
    exact h.disjoint f hf hmem

/-- In every run of `nu__list_append` and `nu__list_remove` from `nu__list_init`, the list is
the sequence of the objects appended and not yet removed. The next `nu__list_append` calls the
allocator only when the free chain is empty, and returns `NU_NULL` exactly when this call
fails, with the list as it was. -/
theorem listRun_isSequence {answer : Nat → Address} {objSize : Nat} {es : List ListEvent}
    {s : ListState} (hanswer : AllocatorContract (objSize + headerSize) answer)
    (h : ListRun answer objSize es s) :
    IsSequence s (live es) (freed es) ∧
      ((listAppend answer s).2.calls ≠ s.calls → s.list.free = null) ∧
      ((listAppend answer s).1 = null ↔ s.list.free = null ∧ answer s.calls = null) ∧
      (s.list.free = null → answer s.calls = null →
        listAppend answer s = (null, { s with calls := s.calls + 1 })) := by
  obtain ⟨hs, fs, hlive, hfreed, hinv⟩ := listRun_inv hanswer h
  have hsize : 0 < objSize + headerSize := Nat.add_pos_right _ (by decide)
  have hne := objectFromHeader_ne_null
  refine ⟨by rw [hlive, hfreed]; exact hinv.isSequence, ?_⟩
  rcases hinv.listAppend hanswer hsize with
    ⟨x, fs', rfl, hobj, hcalls, -⟩ | ⟨rfl, hans, hfail, -⟩ | ⟨rfl, hans, x, -, -, hobj, -⟩
  · have hfree : s.list.free ≠ null := by
      rw [hinv.free.1]
      rintro rfl
      exact hinv.null_notMem (by simp)
    refine ⟨fun h => absurd hcalls h, ⟨fun h => absurd (hobj.symm.trans h) (hne x), fun h => ?_⟩,
      fun h => absurd h hfree⟩
    exact absurd h.1 hfree
  · have hfree : s.list.free = null := hinv.free
    exact ⟨fun _ => hfree, ⟨fun _ => ⟨hfree, hans⟩, fun _ => by rw [hfail]⟩, fun _ _ => hfail⟩
  · have hfree : s.list.free = null := hinv.free
    refine ⟨fun _ => hfree, ⟨fun h => absurd (hobj.symm.trans h) (hne x), fun h => ?_⟩,
      fun _ h => absurd h hans⟩
    exact absurd h.2 hans

/-- An allocator that fails at its third call. -/
def thirdFails (i : Nat) : Address := if i = 2 then null else 64 * (i + 1)

/-- The allocator that fails at the third call keeps the contract. -/
theorem thirdFails_contract : AllocatorContract (4 + headerSize) thirdFails := by
  have hsome : ∀ {i}, thirdFails i ≠ null → thirdFails i = 64 * (i + 1) := fun h =>
    if_neg fun hi => h (if_pos hi)
  have hapart : ∀ {i j : Nat}, j < i → 64 * (j + 1) + (4 + 16) ≤ 64 * (i + 1) := by omega
  constructor
  · intro i hi
    rw [hsome hi]
    exact Nat.lt_of_lt_of_le (show 16 < 64 by decide) (Nat.le_mul_of_pos_right 64 i.succ_pos)
  · intro i j hij hi hj
    rw [hsome hi, hsome hj]
    exact Or.inr (hapart hij)

/-- A run with a reuse and with a failure of the allocator. -/
theorem listRun_isSequence_thirdFails :
    ∃ s, ListRun thirdFails 4 [.append 64, .append 128, .remove 64, .append 64] s ∧
      IsSequence s [128, 64] [] ∧
      listAppend thirdFails s = (null, { s with calls := s.calls + 1 }) := by
  have hrun : ListRun thirdFails 4 [.append 64, .append 128, .remove 64, .append 64] _ :=
    .append (.remove (.append (.append (.init fun _ => ⟨null, null⟩))) (by decide))
  obtain ⟨hseq, -, -, hfail⟩ := listRun_isSequence thirdFails_contract hrun
  exact ⟨_, hrun, hseq, hfail rfl rfl⟩

end Nucleus.Proofs
