import Nucleus.Lib.Chain
import Nucleus.Vm.Slotmap

/-!
# `Nucleus.Proofs.Slotlist`: lists that share a slot list

Several lists live in one `nu__slotlist_t`, each with its own `first` variable. The heads are
indexed by a type `ι`, and `SharedLists` is the state of the links and the heads.

`listsOf` is the model: `add_first` is `cons`, `remove` is `erase`. A slot that was removed keeps
its links, so the invariant `SlotlistInv` speaks of the slots that are on a list only: each list
is linked both ways, and no slot is on two lists.
-/

set_option autoImplicit false

namespace Nucleus.Proofs

open Nucleus.Lib
open Nucleus.Vm

/-! ### The specification -/

section
variable {ι : Type} [DecidableEq ι]

/-- A call on the list of a head. -/
inductive SlotlistEvent (ι : Type) where
  | addFirst (head : ι) (slot : Slot)
  | remove (head : ι) (slot : Slot)

/-- The links, and the `first` variable of each list. -/
structure SharedLists (ι : Type) where
  links : Slotlist
  first : ι → Slot

/-- `nu__slotlist_add_first(links, &first[head], slot)`. -/
def SharedLists.addFirst (s : SharedLists ι) (head : ι) (slot : Slot) : SharedLists ι :=
  { links := (slotlistAddFirst s.links (s.first head) slot).1
    first := Function.update s.first head (slotlistAddFirst s.links (s.first head) slot).2 }

/-- `nu__slotlist_remove(links, &first[head], slot)`. -/
def SharedLists.remove (s : SharedLists ι) (head : ι) (slot : Slot) : SharedLists ι :=
  { links := (slotlistRemove s.links (s.first head) slot).1
    first := Function.update s.first head (slotlistRemove s.links (s.first head) slot).2 }

/-- The lists after a call. The slot `NU_SLOT_NULL` is no slot, and a call with it does nothing. -/
def listsStep (lists : ι → List Slot) : SlotlistEvent ι → ι → List Slot
  | .addFirst head slot =>
      if slot = slotNull then lists else Function.update lists head (slot :: lists head)
  | .remove head slot => Function.update lists head ((lists head).erase slot)

/-- The lists after a run. -/
def listsOf (es : List (SlotlistEvent ι)) : ι → List Slot := es.foldl listsStep fun _ => []

/-- A run from `nu__slotlist_init` with every `first` at `NU_SLOT_NULL`: `add_first` of slots of
the table that are on no list, `remove` of slots that are on the list, or of none. -/
inductive SlotlistRun (ι : Type) [DecidableEq ι] (memory : Slotlist) (capacity : UInt16) :
    List (SlotlistEvent ι) → SharedLists ι → Prop where
  | init : SlotlistRun ι memory capacity [] ⟨slotlistInit memory capacity, fun _ => slotNull⟩
  | addFirst {es : List (SlotlistEvent ι)} {s : SharedLists ι} {head : ι} {slot : Slot} :
      SlotlistRun ι memory capacity es s → slot ≤ capacity → (∀ i, slot ∉ listsOf es i) →
      SlotlistRun ι memory capacity (es ++ [.addFirst head slot]) (s.addFirst head slot)
  | remove {es : List (SlotlistEvent ι)} {s : SharedLists ι} {head : ι} {slot : Slot} :
      SlotlistRun ι memory capacity es s → (slot ∈ listsOf es head ∨ slot = slotNull) →
      SlotlistRun ι memory capacity (es ++ [.remove head slot]) (s.remove head slot)

/-- `slotlist[slot - 1].prev`. -/
def slotPrev (links : Slotlist) (slot : Slot) : Slot := (links (slot - 1)).prev

/-- `slotlist[slot - 1].next`. -/
def slotNext (links : Slotlist) (slot : Slot) : Slot := (links (slot - 1)).next

/-- The links hold the list `l` with the head `first`. -/
structure HoldsList (links : Slotlist) (first : Slot) (l : List Slot) : Prop where
  /-- `nu__slotlist_next` visits the slots in order and ends at `NU_SLOT_NULL`. -/
  walk : IsChain slotNull (slotlistNext links) first l
  /-- The `prev` links visit them the other way round, from the last one. -/
  backward : IsChain slotNull (slotPrev links) (l.getLastD slotNull) l.reverse
  first_prev : first ≠ slotNull → slotPrev links first = slotNull
  nodup : l.Nodup

/-! ### The links after a store -/

/-- The links back when an item is changed. -/
theorem slotPrev_modifyItem (links : Slotlist) (slot : Slot) (f : SlotlistItem → SlotlistItem) :
    slotPrev (links.modifyItem slot f) =
      Function.update (slotPrev links) slot (f (links (slot - 1))).prev := by
  funext c
  by_cases hc : c = slot
  · subst hc
    simp [slotPrev, Slotlist.modifyItem]
  · simp [slotPrev, Slotlist.modifyItem, hc]

/-- The links on when an item is changed. -/
theorem slotNext_modifyItem (links : Slotlist) (slot : Slot) (f : SlotlistItem → SlotlistItem) :
    slotNext (links.modifyItem slot f) =
      Function.update (slotNext links) slot (f (links (slot - 1))).next := by
  funext c
  by_cases hc : c = slot
  · subst hc
    simp [slotNext, Slotlist.modifyItem]
  · simp [slotNext, Slotlist.modifyItem, hc]

/-- Storing a `next` link leaves the `prev` links alone. -/
theorem slotPrev_setNext (links : Slotlist) (slot v : Slot) :
    slotPrev (links.modifyItem slot fun item => { item with next := v }) = slotPrev links :=
  (slotPrev_modifyItem links slot _).trans (Function.update_eq_self slot (slotPrev links))

/-- Storing a `prev` link leaves the `next` links alone. -/
theorem slotNext_setPrev (links : Slotlist) (slot v : Slot) :
    slotNext (links.modifyItem slot fun item => { item with prev := v }) = slotNext links :=
  (slotNext_modifyItem links slot _).trans (Function.update_eq_self slot (slotNext links))

/-- A link back that is written. -/
theorem slotPrev_setPrev (links : Slotlist) (slot v : Slot) :
    slotPrev (links.modifyItem slot fun item => { item with prev := v }) =
      Function.update (slotPrev links) slot v := slotPrev_modifyItem links slot _

/-- A link on that is written. -/
theorem slotNext_setNext (links : Slotlist) (slot v : Slot) :
    slotNext (links.modifyItem slot fun item => { item with next := v }) =
      Function.update (slotNext links) slot v := slotNext_modifyItem links slot _

/-- `nu__slotlist_add_first` makes the updates of `Linked.cons`. -/
theorem slotlistAddFirst_links (links : Slotlist) (first : Slot) {slot : Slot}
    (hslot : slot ≠ slotNull) :
    slotPrev (slotlistAddFirst links first slot).1 =
        Function.update
          (if first = slotNull then slotPrev links
            else Function.update (slotPrev links) first slot) slot slotNull ∧
      slotNext (slotlistAddFirst links first slot).1 =
        Function.update (slotNext links) slot first ∧
      (slotlistAddFirst links first slot).2 = slot := by
  unfold slotlistAddFirst
  rw [if_neg hslot]
  by_cases hfirst : first = slotNull
  · simp only [hfirst, ne_eq, not_true_eq_false, if_false, if_true]
    exact ⟨by rw [slotPrev_setPrev, slotPrev_setNext], by rw [slotNext_setPrev, slotNext_setNext],
      trivial⟩
  · simp only [ne_eq, hfirst, not_false_eq_true, if_true, if_false]
    exact ⟨by rw [slotPrev_setPrev, slotPrev_setNext, slotPrev_setPrev],
      by rw [slotNext_setPrev, slotNext_setNext, slotNext_setPrev], trivial⟩

/-- `nu__slotlist_remove` makes the updates of `Linked.remove`. -/
theorem slotlistRemove_links {links : Slotlist} (first : Slot) {slot : Slot}
    (hslot : slot ≠ slotNull) (hprev : slotPrev links slot ≠ slot) :
    slotPrev (slotlistRemove links first slot).1 =
        (if slotNext links slot = slotNull then slotPrev links
          else Function.update (slotPrev links) (slotNext links slot) (slotPrev links slot)) ∧
      slotNext (slotlistRemove links first slot).1 =
        (if slotPrev links slot = slotNull then slotNext links
          else Function.update (slotNext links) (slotPrev links slot) (slotNext links slot)) ∧
      (slotlistRemove links first slot).2 =
        if first = slot then slotNext links slot else first := by
  -- the store into the slot before, which leaves the item of `slot` as it was
  obtain ⟨l₁, hl₁⟩ : ∃ l₁, l₁ = if (links (slot - 1)).prev ≠ slotNull then
      links.modifyItem (links (slot - 1)).prev
        fun item => { item with next := (links (slot - 1)).next }
    else links := ⟨_, rfl⟩
  have hprev₁ : slotPrev l₁ = slotPrev links := by
    rw [hl₁]
    split
    · exact slotPrev_setNext _ _ _
    · rfl
  have hnext₁ : slotNext l₁ = if slotPrev links slot = slotNull then slotNext links
      else Function.update (slotNext links) (slotPrev links slot) (slotNext links slot) := by
    rw [hl₁]
    by_cases hp : slotPrev links slot = slotNull
    · have hp' : ¬ (links (slot - 1)).prev ≠ slotNull := not_not.mpr hp
      rw [if_neg hp', if_pos hp]
    · have hp' : (links (slot - 1)).prev ≠ slotNull := hp
      rw [if_pos hp', if_neg hp]
      exact slotNext_setNext _ _ _
  have hself : slotNext l₁ slot = slotNext links slot := by
    rw [hnext₁]
    split
    · rfl
    · exact Function.update_of_ne (Ne.symm hprev) _ _
  -- the store into the slot after
  obtain ⟨l₂, hl₂⟩ : ∃ l₂, l₂ = if (l₁ (slot - 1)).next ≠ slotNull then
      l₁.modifyItem (l₁ (slot - 1)).next fun item => { item with prev := (l₁ (slot - 1)).prev }
    else l₁ := ⟨_, rfl⟩
  have hnext₂ : slotNext l₂ = slotNext l₁ := by
    rw [hl₂]
    split
    · exact slotNext_setPrev _ _ _
    · rfl
  have hprev₂ : slotPrev l₂ = if slotNext links slot = slotNull then slotPrev links
      else Function.update (slotPrev links) (slotNext links slot) (slotPrev links slot) := by
    rw [hl₂, ← hself, ← hprev₁]
    by_cases hn : slotNext l₁ slot = slotNull
    · have hn' : ¬ (l₁ (slot - 1)).next ≠ slotNull := not_not.mpr hn
      rw [if_neg hn', if_pos hn]
    · have hn' : (l₁ (slot - 1)).next ≠ slotNull := hn
      rw [if_pos hn', if_neg hn]
      exact slotPrev_setPrev _ _ _
  have hremove : slotlistRemove links first slot =
      (l₂, if first = slot then (l₂ (slot - 1)).next else first) := by
    rw [hl₂, hl₁]
    exact if_neg hslot
  rw [hremove]
  refine ⟨hprev₂, hnext₂.trans hnext₁, ?_⟩
  show (if first = slot then slotNext l₂ slot else first) = _
  rw [hnext₂, hself]

/-! ### The invariant -/

/-- Every list is linked both ways, and no slot is on two lists. -/
structure SlotlistInv (s : SharedLists ι) (lists : ι → List Slot) : Prop where
  linked : ∀ i, ∃ last,
    Linked slotNull (slotPrev s.links) (slotNext s.links) (s.first i) last (lists i)
  disjoint : ∀ i j, i ≠ j → ∀ c ∈ lists i, c ∉ lists j

namespace SlotlistInv

variable {s : SharedLists ι} {lists : ι → List Slot} {head : ι} {slot : Slot}

omit [DecidableEq ι] in
/-- The null slot is in no list. -/
theorem null_notMem (h : SlotlistInv s lists) (i : ι) : slotNull ∉ lists i := by
  obtain ⟨last, hlinked⟩ := h.linked i
  exact hlinked.null_notMem

omit [DecidableEq ι] in
/-- The head of a list that is not empty is in it. -/
theorem first_mem (h : SlotlistInv s lists) {i : ι} (hne : s.first i ≠ slotNull) :
    s.first i ∈ lists i := by
  obtain ⟨last, hlinked⟩ := h.linked i
  exact List.mem_reverse.mp (hlinked.symm.last_mem hne)

/-- The slot goes in front of its list. The stores are in that slot and in the one that was the
first, which are on no other list. -/
theorem addFirst (h : SlotlistInv s lists) (hnull : slot ≠ slotNull)
    (hnew : ∀ i, slot ∉ lists i) :
    SlotlistInv (s.addFirst head slot) (Function.update lists head (slot :: lists head)) := by
  obtain ⟨hprev, hnext, hfirst⟩ :=
    slotlistAddFirst_links s.links (s.first head) hnull
  refine ⟨fun i => ?_, fun i j hij c hc => ?_⟩
  · obtain ⟨last, hlinked⟩ := h.linked i
    simp only [SharedLists.addFirst, hprev, hnext, hfirst]
    by_cases hi : i = head
    · subst hi
      -- the list of `head` begins at `slot`
      rw [Function.update_self, Function.update_self]
      exact ⟨_, hlinked.cons (hnew i) hnull⟩
    -- another list has neither `slot` nor the old first slot of `head`, the two that change
    · rw [Function.update_of_ne hi, Function.update_of_ne hi]
      refine ⟨last, hlinked.congr (fun c hc => ?_) fun c hc => ?_⟩
      · have hne : c ≠ slot := fun heq => hnew i (heq ▸ hc)
        rw [Function.update_of_ne hne]
        split
        · rfl
        · rename_i hf
          refine Function.update_of_ne ?_ _ _
          rintro rfl
          exact h.disjoint i head hi _ hc (h.first_mem hf)
      · have hne : c ≠ slot := fun heq => hnew i (heq ▸ hc)
        exact Function.update_of_ne hne _ _
  · by_cases hi : i = head
    · subst hi
      rw [Function.update_self] at hc
      rw [Function.update_of_ne (Ne.symm hij)]
      rcases List.mem_cons.mp hc with rfl | hc
      · exact hnew j
      · exact h.disjoint i j hij c hc
    · rw [Function.update_of_ne hi] at hc
      by_cases hj : j = head
      · subst hj
        rw [Function.update_self, List.mem_cons]
        rintro (rfl | hmem)
        · exact hnew i hc
        · exact h.disjoint i j hij c hc hmem
      · rw [Function.update_of_ne hj]
        exact h.disjoint i j hij c hc

/-- The slot leaves its list. The stores are in its two neighbours, which are on the same
list. -/
theorem remove (h : SlotlistInv s lists) (hslot : slot ∈ lists head) :
    SlotlistInv (s.remove head slot)
      (Function.update lists head ((lists head).erase slot)) := by
  obtain ⟨last, hlinked⟩ := h.linked head
  obtain ⟨a, b, hab⟩ := List.append_of_mem hslot
  have hmem := h.null_notMem head
  have hother := fun i (hi : i ≠ head) => h.disjoint i head hi
  rw [hab] at hlinked hmem hother
  have hnd := (List.nodup_cons.mp (List.nodup_middle.mp hlinked.nodup)).1
  have hnull : slot ≠ slotNull := fun heq => hmem (by simp [heq])
  -- the neighbours of the slot are in its list, or there are none
  have hprevMem : slotPrev s.links slot ≠ slotNull → slotPrev s.links slot ∈ a :=
    hlinked.prev_mem
  have hnextMem : slotNext s.links slot ≠ slotNull → slotNext s.links slot ∈ b :=
    hlinked.next_mem
  have hprevNe : slotPrev s.links slot ≠ slot := by
    intro heq
    rw [heq] at hprevMem
    exact hnd (List.mem_append_left _ (hprevMem hnull))
  obtain ⟨hprev, hnext, hfirst⟩ :=
    slotlistRemove_links (s.first head) hnull hprevNe
  have herase : (lists head).erase slot = a ++ b := by
    have hxa : slot ∉ a := fun hmem => hnd (List.mem_append_left _ hmem)
    rw [hab, List.erase_append_right _ hxa, List.erase_cons_head]
  refine ⟨fun i => ?_, fun i j hij c hc => ?_⟩
  · simp only [SharedLists.remove, hprev, hnext, hfirst, herase]
    -- the list of the slot loses it, and the links of another list are not touched
    by_cases hi : i = head
    · subst hi
      rw [Function.update_self, Function.update_self]
      exact ⟨_, hlinked.remove⟩
    · rw [Function.update_of_ne hi, Function.update_of_ne hi]
      obtain ⟨last', hlinked'⟩ := h.linked i
      refine ⟨last', hlinked'.congr (fun c hc => ?_) fun c hc => ?_⟩
      · split
        · rfl
        · rename_i hn
          refine Function.update_of_ne ?_ _ _
          rintro rfl
          exact hother i hi _ hc
            (List.mem_append_right _ (List.mem_cons_of_mem _ (hnextMem hn)))
      · split
        · rfl
        · rename_i hp
          refine Function.update_of_ne ?_ _ _
          rintro rfl
          exact hother i hi _ hc (List.mem_append_left _ (hprevMem hp))
  -- the lists only become smaller, so they stay disjoint
  · have hsub : ∀ i, ∀ c ∈ Function.update lists head ((lists head).erase slot) i,
        c ∈ lists i := by
      intro i c hc
      by_cases hi : i = head
      · subst hi
        rw [Function.update_self] at hc
        exact List.mem_of_mem_erase hc
      · rwa [Function.update_of_ne hi] at hc
    exact fun hc' => h.disjoint i j hij c (hsub i c hc) (hsub j c hc')

omit [DecidableEq ι] in
/-- What the invariant says of the calls a user makes. -/
theorem holdsList (h : SlotlistInv s lists) (i : ι) :
    HoldsList s.links (s.first i) (lists i) := by
  obtain ⟨last, hlinked⟩ := h.linked i
  have hwalk : Seg (slotlistNext s.links) (s.first i) (lists i) slotNull :=
    hlinked.forward.congr fun c hc =>
      if_neg fun heq : c = slotNull => hlinked.null_notMem (heq ▸ hc)
  refine ⟨isChain_iff_seg.mpr ⟨hwalk, hlinked.null_notMem⟩, ?_, fun hne => ?_, hlinked.nodup⟩
  · rw [← hlinked.last_eq]
    exact isChain_iff_seg.mpr ⟨hlinked.backward, by simpa using hlinked.null_notMem⟩
  · have hmem := h.first_mem hne
    have hhead := hlinked.forward.head_eq
    cases hl : lists i with
    | nil =>
        rw [hl] at hmem
        exact absurd hmem List.not_mem_nil
    | cons c cs =>
        rw [hl] at hlinked hhead
        rw [hhead]
        exact Linked.prev_eq (a := []) hlinked

end SlotlistInv

/-! ### Runs -/

/-- The invariant holds in every run. -/
theorem slotlistRun_inv {memory : Slotlist} {capacity : UInt16} {es : List (SlotlistEvent ι)}
    {s : SharedLists ι} (h : SlotlistRun ι memory capacity es s) : SlotlistInv s (listsOf es) := by
  induction h with
  | init => exact ⟨fun _ => ⟨slotNull, Linked.nil⟩, fun _ _ _ c hc => absurd hc List.not_mem_nil⟩
  | @addFirst es s head slot _ _ hnew ih =>
      rw [listsOf, List.foldl_append, ← listsOf]
      show SlotlistInv _ (if slot = slotNull then _ else _)
      by_cases hnull : slot = slotNull
      · subst hnull
        -- the null slot is neither added nor removed
        have hsame : s.addFirst head slotNull = s := by
          simp [SharedLists.addFirst, slotlistAddFirst]
        rw [if_pos rfl, hsame]
        exact ih
      · rw [if_neg hnull]
        exact ih.addFirst hnull hnew
  | @remove es s head slot _ hslot ih =>
      rw [listsOf, List.foldl_append, ← listsOf]
      show SlotlistInv _ (Function.update _ _ _)
      by_cases hnull : slot = slotNull
      · subst hnull
        have hsame : s.remove head slotNull = s := by
          simp [SharedLists.remove, slotlistRemove]
        rw [hsame, List.erase_of_not_mem (ih.null_notMem head), Function.update_eq_self]
        exact ih
      · exact ih.remove (hslot.resolve_right hnull)

/-- In every run over one slot list, every head holds its own list, whatever was done to the
others: `nu__slotlist_next` visits the slots of the list in order and ends at `NU_SLOT_NULL`,
and the `prev` links mirror it. No slot is on two lists. -/
theorem slotlistRun_holdsLists {memory : Slotlist} {capacity : UInt16}
    {es : List (SlotlistEvent ι)} {s : SharedLists ι} (h : SlotlistRun ι memory capacity es s) :
    (∀ i, HoldsList s.links (s.first i) (listsOf es i)) ∧
      ∀ i j, i ≠ j → ∀ c ∈ listsOf es i, c ∉ listsOf es j := by
  have hinv := slotlistRun_inv h
  exact ⟨hinv.holdsList, hinv.disjoint⟩

end

/-- Two lists over one slot list: a slot taken off the first one goes on the second. -/
theorem slotlistRun_holdsLists_moved :
    ∃ es s, SlotlistRun Bool (fun _ => ⟨0, 0⟩) 3 es s ∧ listsOf es true = [3, 1] ∧
      listsOf es false = [2] ∧ HoldsList s.links (s.first true) [3, 1] ∧
      HoldsList s.links (s.first false) [2] := by
  have hadd : SlotlistRun Bool (fun _ => ⟨0, 0⟩) 3
      [.addFirst true 1, .addFirst true 2, .addFirst true 3] _ :=
    .addFirst (.addFirst (.addFirst .init (by decide) (by decide)) (by decide) (by decide))
      (by decide) (by decide)
  have hrun : SlotlistRun Bool (fun _ => ⟨0, 0⟩) 3
      [.addFirst true 1, .addFirst true 2, .addFirst true 3, .remove true 2, .addFirst false 2] _ :=
    .addFirst (.remove hadd (Or.inl (by decide))) (by decide) (by decide)
  obtain ⟨hholds, -⟩ := slotlistRun_holdsLists hrun
  exact ⟨_, _, hrun, by decide, by decide, hholds true, hholds false⟩

end Nucleus.Proofs
