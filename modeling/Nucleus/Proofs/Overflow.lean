import Nucleus.Proofs.EmptyFunctions

/-!
# `Nucleus.Proofs.Overflow`: when the resolver's arrays are long enough

`nulang__define_symbol` stores a declaration behind those that are in force, and it does not ask
whether the arrays go on there. A run of the model that stores behind the arrays has no result, so
`Ast.StoresInside` says that no run does. `storesInside_iff` is the condition on the tree: the gates
of a run have room exactly when each declaration that the run comes to finds fewer than 1024 others
in force.

A source of 1025 functions does not meet it (`parse_manyFunctions`).
-/

set_option autoImplicit false

namespace Nucleus.Lang

/-- No run of `nulang__resolve_symbols` on the arena stores behind the arrays. The runs with more
fuel than nodes are those that do not run out of it. -/
def Ast.StoresInside (a : Ast) : Prop :=
  ∀ (error : ErrorData) (fuel : Nat), a.nodeCount < fuel →
    resolveSymbols fuel ⟨a, [], error⟩ ≠ none

end Nucleus.Lang

namespace Nucleus.Proofs

open Nucleus.Lib
open Nucleus.Lib.Prog
open Nucleus.Lang
open Nucleus.Spec

/-! ### The functions -/

section
variable {a : Ast} {cs : Forest Nat} {env : List NodeId}

/-- The functions have room when each one finds room that has a new name, like all before it. -/
theorem functionGates_roomAt_iff {fs : List NodeId}
    (henv : env.Pairwise fun d d' => ¬ a.SameName d' d) :
    RoomAt (functionGates a env fs) ↔ ∀ pre i post, fs = pre ++ i :: post →
      ((pre ++ [i]).reverse ++ env).Pairwise (fun d d' => ¬ a.SameName d' d) →
      pre.length + env.length < maxSymbols := by
  induction fs generalizing env with
  | nil => exact iff_of_true trivial fun pre i post h => by simp at h
  | cons i fs ih =>
      rw [functionGates, RoomAt]
      constructor
      · intro h pre j post heq hdistinct
        rw [List.reverse_append, List.reverse_singleton, List.append_assoc] at hdistinct
        cases pre with
        | nil =>
            obtain ⟨rfl, rfl⟩ := List.cons.inj heq
            have hroom : env.length < maxSymbols := (h (List.pairwise_cons.mp hdistinct).1).1
            rwa [List.length_nil, Nat.zero_add]
        | cons k pre =>
            obtain ⟨rfl, rfl⟩ := List.cons.inj heq
            rw [List.reverse_cons, List.append_assoc, List.singleton_append] at hdistinct
            have hi := hdistinct.sublist
              ((List.sublist_append_right pre.reverse (i :: env)).trans
                (List.sublist_append_right [j] _))
            -- the first function is on the stack for those behind it
            have hroom := (ih hi).mp (h (List.pairwise_cons.mp hi).1).2 pre j post rfl
              (by rwa [List.reverse_append, List.reverse_singleton, List.append_assoc])
            rw [List.length_cons] at hroom ⊢
            omega
      · intro h hi
        have hcons : (i :: env).Pairwise fun d d' => ¬ a.SameName d' d :=
          List.pairwise_cons.mpr ⟨hi, henv⟩
        refine ⟨?_, (ih hcons).mpr fun pre j post heq hdistinct => ?_⟩
        · have hroom := h [] i fs rfl hcons
          rwa [List.length_nil, Nat.zero_add] at hroom
        · have hroom := h (i :: pre) j post (by rw [heq, List.cons_append]) (by
            rwa [List.cons_append, List.reverse_cons, List.append_assoc, List.singleton_append])
          rw [List.length_cons] at hroom ⊢
          omega

variable (hmod : a.IsModule (.tree 0 cs))
include hmod

/-- A function stands before another one in the tree when it is defined first. -/
theorem before_functions_iff {pre post : List NodeId} {n d : NodeId}
    (h : functions a cs = pre ++ n :: post) :
    a.IsGlobal (.tree 0 cs) d ∧ (Forest.tree 0 cs).Before d n ↔ d ∈ pre := by
  have hsub : (functions a cs).Sublist (Forest.tree 0 cs).labels := functions_sublist
  have hnd := hsub.nodup hmod.nodup
  have hn : n ∈ functions a cs := by simp [h]
  rw [isGlobal_iff hmod]
  rw [h] at hnd hsub hn ⊢
  constructor
  · rintro ⟨hd, hbefore⟩
    exact (Forest.pair_sublist_iff hnd).mp
      (Forest.pair_sublist_of_sublist hsub hmod.nodup hd hn hbefore)
  · intro hd
    exact ⟨List.mem_append_left _ hd, ((Forest.pair_sublist_iff hnd).mpr hd).trans hsub⟩

/-- The functions up to one of them have different names when none has the name of one before. -/
theorem distinct_upTo_iff {pre post : List NodeId} {n : NodeId}
    (h : functions a cs = pre ++ n :: post) :
    (pre ++ [n]).reverse.Pairwise (fun d d' => ¬ a.SameName d' d) ↔
      ∀ m, a.IsGlobal (.tree 0 cs) m → m = n ∨ (Forest.tree 0 cs).Before m n →
        a.NewGlobal (.tree 0 cs) m := by
  have hsub : (functions a cs).Sublist (Forest.tree 0 cs).labels := functions_sublist
  have hnd := hsub.nodup hmod.nodup
  have hupto : (pre ++ [n]).Sublist (functions a cs) := by
    rw [h, List.append_cons pre n post]
    exact List.sublist_append_left _ _
  have hmem : ∀ {m}, a.IsGlobal (.tree 0 cs) m ∧ (m = n ∨ (Forest.tree 0 cs).Before m n) ↔
      m ∈ pre ++ [n] := by
    intro m
    have hn : a.IsGlobal (.tree 0 cs) n := (isGlobal_iff hmod).mpr (by simp [h])
    rw [and_or_left, before_functions_iff hmod h, List.mem_append, List.mem_singleton, or_comm]
    refine or_congr Iff.rfl ⟨And.right, ?_⟩
    rintro rfl
    exact ⟨hn, rfl⟩
  rw [List.pairwise_reverse, List.pairwise_iff_forall_sublist]
  constructor
  · intro hall m hm hupto' d hd hbefore
    have hm' := hmem.mp ⟨hm, hupto'⟩
    have hpair : [d, m].Sublist (functions a cs) := Forest.pair_sublist_of_sublist hsub hmod.nodup
      ((isGlobal_iff hmod).mp hd) ((isGlobal_iff hmod).mp hm) hbefore
    -- `d` stands before `m`, so it is one of the functions up to `n`, too
    have hd' : d ∈ pre ++ [n] := by
      rw [h, List.append_cons pre n post, Forest.pair_sublist_append] at hpair
      rw [h, List.append_cons pre n post] at hnd
      rcases hpair with hpair | ⟨hd', -⟩ | hpair
      · exact hpair.subset (by simp)
      · exact hd'
      · exact absurd (hpair.subset (by simp)) ((List.nodup_append'.mp hnd).2.2 hm')
    exact hall (Forest.pair_sublist_of_sublist hupto hnd hd' hm' hpair)
  · intro hall d m hdm
    have hm := hmem.mpr (hdm.subset (by simp) : m ∈ pre ++ [n])
    have hd := hmem.mpr (hdm.subset (by simp) : d ∈ pre ++ [n])
    exact hall m hm.1 hm.2 d hd.1 ((hdm.trans hupto).trans hsub)

/-- The gates of the functions have room when each function that is reached finds few before it. -/
theorem functions_roomAt_iff :
    RoomAt (functionGates a [] (functions a cs)) ↔ ∀ n, a.IsGlobal (.tree 0 cs) n →
      (∀ m, a.IsGlobal (.tree 0 cs) m → m = n ∨ (Forest.tree 0 cs).Before m n →
        a.NewGlobal (.tree 0 cs) m) →
      Fewer maxSymbols fun d => a.IsGlobal (.tree 0 cs) d ∧ (Forest.tree 0 cs).Before d n := by
  have hnd : (functions a cs).Nodup := functions_sublist.nodup hmod.nodup
  rw [functionGates_roomAt_iff List.Pairwise.nil]
  constructor
  · intro hroom n hn hnew ds hds hmem
    obtain ⟨pre, post, h⟩ := List.append_of_mem ((isGlobal_iff hmod).mp hn)
    have hlt := hroom pre n post h (by
      rw [List.append_nil]
      exact (distinct_upTo_iff hmod h).mpr hnew)
    -- the functions before this one are what is on the stack
    have hsub : ds ⊆ pre := fun d hd => (before_functions_iff hmod h).mp (hmem d hd)
    have hle := (List.Nodup.subperm hds hsub).length_le
    rw [List.length_nil] at hlt
    omega
  · intro hfew pre n post h hdistinct
    rw [List.append_nil] at hdistinct
    have hn : a.IsGlobal (.tree 0 cs) n := (isGlobal_iff hmod).mpr (by simp [h])
    refine hfew n hn ((distinct_upTo_iff hmod h).mp hdistinct) pre ?_
      fun d hd => (before_functions_iff hmod h).mpr hd
    rw [h] at hnd
    exact (List.nodup_append'.mp hnd).1

/-! ### The other nodes -/

/-- The check at a node of the walk, in terms of the tree. -/
theorem check_iff {v : NodeId × List NodeId}
    (hv : v ∈ cs.visits a.IsLocal a.IsScope (functions a cs).reverse) :
    Check a v ↔ a.PassesAt (.tree 0 cs) v.1 := by
  constructor
  · intro h
    refine ⟨fun hlocal d hd => h.declares hlocal d ((mem_stack_iff hmod hv).mpr hd),
      fun htype => ?_⟩
    obtain ⟨d, hd, hsame⟩ := h.refers htype
    exact ⟨d, (mem_stack_iff hmod hv).mp hd, hsame⟩
  · intro h
    refine ⟨fun hlocal d hd => h.declares hlocal d ((mem_stack_iff hmod hv).mp hd), fun htype => ?_⟩
    obtain ⟨d, hd, hsame⟩ := h.refers htype
    exact ⟨d, (mem_stack_iff hmod hv).mpr hd, hsame⟩

/-- The root is no declaration and no symbol. -/
theorem passesAt_root : a.PassesAt (.tree 0 cs) 0 := by
  refine ⟨fun hlocal => absurd rfl (ne_root_of_isLocal hmod hlocal), fun htype => ?_⟩
  rw [hmod.type] at htype
  cases htype

/-- The walk has passed all nodes up to `v` when they pass in the tree. -/
theorem checks_upTo_iff {pre post : List (NodeId × List NodeId)} {v : NodeId × List NodeId}
    (h : cs.visits a.IsLocal a.IsScope (functions a cs).reverse = pre ++ v :: post) :
    (∀ u ∈ pre, Check a u) ∧ Check a v ↔ ∀ m ∈ (Forest.tree 0 cs).labels,
      m = v.1 ∨ (Forest.tree 0 cs).Before m v.1 → a.PassesAt (.tree 0 cs) m := by
  obtain ⟨-, hnd, -, -⟩ := Forest.nodup_labels_cons.mp hmod.nodup
  have hlabels : cs.labels = pre.map Prod.fst ++ v.1 :: post.map Prod.fst := by
    rw [← Forest.map_fst_visits a.IsLocal a.IsScope cs (functions a cs).reverse, h]
    simp
  have hv : v.1 ∈ cs.labels := by simp [hlabels]
  -- before a node come the root and what was visited before it
  have hbefore : ∀ {m : NodeId}, (Forest.tree 0 cs).Before m v.1 ↔
      m = 0 ∨ m ∈ pre.map Prod.fst := by
    intro m
    rw [hlabels] at hnd
    rw [Forest.tree, Forest.before_children hmod.nodup hv, Forest.Before, hlabels,
      Forest.pair_sublist_iff hnd]
  have hvisit : ∀ u ∈ pre, u ∈ cs.visits a.IsLocal a.IsScope (functions a cs).reverse := by
    intro u hu
    rw [h]
    exact List.mem_append_left _ hu
  have hlast : v ∈ cs.visits a.IsLocal a.IsScope (functions a cs).reverse := by simp [h]
  constructor
  · rintro ⟨hpre, hcheck⟩ m - (rfl | hm)
    · exact (check_iff hmod hlast).mp hcheck
    · rcases hbefore.mp hm with rfl | hm
      · exact passesAt_root hmod
      · obtain ⟨u, hu, rfl⟩ := List.mem_map.mp hm
        exact (check_iff hmod (hvisit u hu)).mp (hpre u hu)
  · intro hall
    refine ⟨fun u hu => ?_, ?_⟩
    · have hm : u.1 ∈ pre.map Prod.fst := List.mem_map_of_mem hu
      exact (check_iff hmod (hvisit u hu)).mpr
        (hall u.1 (mem_labels_of_visit (hvisit u hu)) (Or.inr (hbefore.mpr (Or.inr hm))))
    · exact (check_iff hmod hlast).mpr (hall v.1 (mem_labels_of_visit hlast) (Or.inl rfl))

/-- The gates of the other nodes have room when each declaration that is reached sees few. -/
theorem gatesOf_roomAt_iff :
    RoomAt (gatesOf a cs (functions a cs).reverse) ↔ ∀ n ∈ (Forest.tree 0 cs).labels,
      a.IsLocal n → (∀ m ∈ (Forest.tree 0 cs).labels, m = n ∨ (Forest.tree 0 cs).Before m n →
        a.PassesAt (.tree 0 cs) m) →
      Fewer maxSymbols fun d => a.Visible (.tree 0 cs) d n := by
  rw [roomAt_iff]
  constructor
  · intro hroom n hn hlocal hall ds hds hmem
    obtain ⟨env, hv⟩ := exists_visit hn (ne_root_of_isLocal hmod hlocal)
    obtain ⟨pre, post, h⟩ := List.append_of_mem hv
    obtain ⟨hpre, hcheck⟩ := (checks_upTo_iff hmod h).mpr hall
    have hlt : env.length < maxSymbols := by
      refine hroom (pre.map (gateAt a)) (gateAt a (n, env)) (post.map (gateAt a)) ?_ ?_
        hcheck hlocal
      · rw [gatesOf, h, List.map_append, List.map_cons]
      · exact List.forall_mem_map.mpr hpre
    -- what is visible is on the stack
    have hsub : ds ⊆ env := fun d hd => (mem_stack_iff hmod hv).mpr (hmem d hd)
    have hle := (List.Nodup.subperm hds hsub).length_le
    omega
  · intro hfew pre g post heq hpre hg
    obtain ⟨vs, ws, h, rfl, hws⟩ := List.map_eq_append_iff.mp heq
    obtain ⟨v, ws, rfl, rfl, rfl⟩ := List.map_eq_cons_iff.mp hws
    intro hlocal
    have hchecks : ∀ u ∈ vs, Check a u := fun u hu =>
      hpre (gateAt a u) (List.mem_map_of_mem hu)
    have hv : v ∈ cs.visits a.IsLocal a.IsScope (functions a cs).reverse := by simp [h]
    refine hfew v.1 (mem_labels_of_visit hv) hlocal ((checks_upTo_iff hmod h).mp ⟨hchecks, hg⟩)
      v.2 (nodup_stack hmod hv) fun d hd => (mem_stack_iff hmod hv).mp hd

/-! ### The whole run -/

/-- There is room along the gates of a module when there is room for its declarations. -/
theorem roomForDeclarations_iff :
    RoomAt (functionGates a [] (functions a cs) ++ gatesOf a cs (functions a cs).reverse) ↔
      a.RoomForDeclarations (.tree 0 cs) maxSymbols := by
  have hdistinct : (∀ g ∈ functionGates a [] (functions a cs), g.passes) ↔
      ∀ m, a.IsGlobal (.tree 0 cs) m → a.NewGlobal (.tree 0 cs) m := by
    rw [functionGates_pass_iff List.Pairwise.nil, List.append_nil, functions_distinct_iff hmod]
    exact ⟨fun h m hm => h m hm.2.right_mem hm, fun h m _ hm => h m hm⟩
  rw [roomAt_append, hdistinct, functions_roomAt_iff hmod, gatesOf_roomAt_iff hmod]
  exact ⟨fun h => ⟨h.1, h.2⟩, fun h => ⟨h.globals, h.locals⟩⟩

end

/-- The arena of a module: no run stores behind the arrays when each declaration finds room. -/
theorem storesInside_of_module {a : Ast} {f : Forest Nat} (hmod : a.IsModule f) :
    a.StoresInside ↔ a.RoomForDeclarations f maxSymbols := by
  obtain ⟨cs, rfl⟩ := hmod.tree
  have hsize := size_lt_nodeCount hmod
  rw [← roomForDeclarations_iff hmod]
  constructor
  · intro hinside
    exact (resolveSymbols_gated hmod (by omega)).ne_none_iff.mp
      (hinside ⟨⟨⟨0, 0, 0⟩, ⟨0, 0, 0⟩⟩, .tokenEof, .tokenEof⟩ (a.nodeCount + 1)
        (Nat.lt_succ_self _))
  · intro hroom e fuel hfuel
    exact (resolveSymbols_gated hmod (by omega)).ne_none_iff.mpr hroom

/-- The stores of `nulang__resolve_symbols` stay inside the arrays exactly when each declaration
that it comes to finds fewer than 1024 others in force. -/
theorem storesInside_iff {source : Source} {ast : Ast} {error : ErrorData} {uninit : NodeId}
    {fuel : Nat} {p : Parser Lexer} (hast : ast.Blank)
    (h : parse fuel (parserStart source ast error uninit) = some (.ok (), p)) :
    (∃ f, p.ast.IsModule f) ∧
      ∀ f, p.ast.IsModule f → (p.ast.StoresInside ↔ p.ast.RoomForDeclarations f maxSymbols) := by
  exact ⟨isModule_of_parse hast h, fun f hmod => storesInside_of_module hmod⟩

/-- `applySource` is parsed to a module with functions, arguments and variables. -/
theorem storesInside_iff_applySource :
    ∃ p, parse 20 (startOn applySource) = some (.ok (), p) ∧ (∃ f, p.ast.IsModule f) ∧
      ∀ f, p.ast.IsModule f → (p.ast.StoresInside ↔ p.ast.RoomForDeclarations f maxSymbols) := by
  obtain ⟨_, p, h⟩ := succeeds_eq_true.mp
    (show succeeds (parse 20) (startOn applySource) = true by decide +kernel)
  exact ⟨p, h, storesInside_iff (blank_astInit _ (by decide)) h⟩

/-! ### Few nodes -/

/-- In a tree with few nodes each declaration finds room. -/
theorem roomForDeclarations_of_nodeCount_le {a : Ast} {f : Forest Nat} {limit : Nat}
    (hmod : a.IsModule f) (hle : a.nodeCount ≤ limit) : a.RoomForDeclarations f limit := by
  obtain ⟨cs, rfl⟩ := hmod.tree
  -- with the node that finds them the declarations are different nodes of the tree
  have hfew : ∀ {n : NodeId} {P : NodeId → Prop}, n ∈ (Forest.tree 0 cs).labels → ¬ P n →
      (∀ d, P d → d ∈ (Forest.tree 0 cs).labels) → Fewer limit P := by
    intro n P hn hnot hlabels ds hds hmem
    have hnd : (n :: ds).Nodup := List.nodup_cons.mpr ⟨fun h => hnot (hmem n h), hds⟩
    have hsub : n :: ds ⊆ List.range a.nodeCount := by
      refine List.cons_subset.mpr ⟨List.mem_range.mpr (hmod.lt n hn), fun d hd => ?_⟩
      exact List.mem_range.mpr (hmod.lt d (hlabels d (hmem d hd)))
    have hlen := (List.Nodup.subperm hnd hsub).length_le
    rw [List.length_cons, List.length_range] at hlen
    omega
  refine ⟨fun n hn _ => ?_, fun _ n hn hlocal _ => ?_⟩
  · exact hfew hn.2.right_mem (fun h => not_before_self hmod.nodup h.2) fun d hd => hd.2.left_mem
  · exact hfew hn (not_visible_self hmod hlocal) fun d hd => mem_of_visible hd

/-- An arena of at most 1024 nodes has no more declarations than the arrays hold. -/
theorem storesInside_of_capacity {source : Source} {ast : Ast} {error : ErrorData}
    {uninit : NodeId} {fuel : Nat} {p : Parser Lexer} (hast : ast.Blank)
    (hcap : ast.nodeCapacity.toNat ≤ maxSymbols)
    (h : parse fuel (parserStart source ast error uninit) = some (.ok (), p)) :
    p.ast.StoresInside := by
  obtain ⟨f, hmod⟩ := isModule_of_parse hast h
  have hcount : p.ast.nodeCount ≤ ast.nodeCapacity.toNat := (staysWithin hast _ _ h).1
  rw [storesInside_of_module hmod]
  exact roomForDeclarations_of_nodeCount_le hmod (hcount.trans hcap)

/-! ### Too many functions -/

/-- More functions than the arrays are long, all with different names, do not fit. -/
theorem not_storesInside {a : Ast} {cs : Forest Nat} (hmod : a.IsModule (.tree 0 cs))
    (hdistinct : (functions a cs).Pairwise fun d d' => ¬ a.SameName d d')
    (hmany : maxSymbols < (functions a cs).length) : ¬ a.StoresInside := by
  intro hinside
  have hsize := size_lt_nodeCount hmod
  have hroom := (resolveSymbols_gated hmod (by omega)).ne_none_iff.mp
    (hinside ⟨⟨⟨0, 0, 0⟩, ⟨0, 0, 0⟩⟩, .tokenEof, .tokenEof⟩ (a.nodeCount + 1) (Nat.lt_succ_self _))
  have hfunctions := (functionGates_roomAt_iff List.Pairwise.nil).mp (roomAt_append.mp hroom).1
  -- the function behind as many as the arrays are long
  have hsplit := List.take_append_drop maxSymbols (functions a cs)
  have hlen : ((functions a cs).take maxSymbols).length = maxSymbols :=
    List.length_take_of_le hmany.le
  cases hrest : (functions a cs).drop maxSymbols with
  | nil =>
      have hle := List.drop_eq_nil_iff.mp hrest
      omega
  | cons i post =>
      rw [hrest] at hsplit
      have hlt := hfunctions _ i post hsplit.symm ?_
      · rw [hlen, List.length_nil] at hlt
        omega
      · rw [List.append_nil, List.pairwise_reverse]
        rw [← hsplit, List.append_cons] at hdistinct
        exact hdistinct.sublist (List.sublist_append_left _ _)

/-- 1025 names of different lengths. -/
def manyNames : List (List Char) := (List.range 1025).map fun k => List.replicate (k + 1) 'x'

/-- The names of the witness are names. -/
theorem xName_of_mem_manyNames : ∀ w ∈ manyNames, XName w := by
  intro w hw
  obtain ⟨k, -, rfl⟩ := List.mem_map.mp hw
  refine ⟨rfl, fun c hc => ?_⟩
  obtain rfl := List.eq_of_mem_replicate hc
  rfl

/-- The names of the witness are different. -/
theorem nodup_manyNames : manyNames.Nodup := by
  refine List.Nodup.map (fun j k hjk => ?_) List.nodup_range
  have hlen := congrArg List.length hjk
  simpa using hlen

/-- The source `function x()end function xx()end ...` of 1025 functions. -/
def manyFunctions : Source := functionsSource manyNames xName_of_mem_manyNames

/-- The parser at the start of this source, with an arena of 4096 nodes in zeroed memory. -/
def manyStart : Parser Lexer :=
  parserStart manyFunctions
    (astInit 4096 fun _ => ⟨.astModule, .symref 0 ⟨[], 0⟩, ⟨⟨0, 0, 0⟩, ⟨0, 0, 0⟩⟩, 0, 0, 0, 0⟩)
    ⟨⟨⟨0, 0, 0⟩, ⟨0, 0, 0⟩⟩, .tokenEof, .tokenEof⟩ 0

/-- The last function of this source is stored behind the arrays. -/
theorem parse_manyFunctions :
    ∃ fuel p, parse fuel manyStart = some (.ok (), p) ∧ ¬ p.ast.StoresInside := by
  have hlen : manyNames.length = 1025 := by simp [manyNames]
  have hcap : (4096 : UInt32).toNat = 4096 := rfl
  have hblank : (astInit 4096 fun _ => ⟨.astModule, .symref 0 ⟨[], 0⟩, ⟨⟨0, 0, 0⟩, ⟨0, 0, 0⟩⟩,
    0, 0, 0, 0⟩).Blank := blank_astInit _ (by omega)
  have hcapacity : 2 * manyNames.length < (4096 : UInt32).toNat := by
    omega
  unfold manyStart manyFunctions
  obtain ⟨fuel, p, hparse⟩ := parse_functions xName_of_mem_manyNames hblank hcapacity
  obtain ⟨cs, hmod, hnames⟩ := names_of_parse xName_of_mem_manyNames hblank hparse
  have hnd := nodup_manyNames
  rw [← hnames, List.Nodup, List.pairwise_map] at hnd
  rw [← hnames, List.length_map] at hlen
  exact ⟨fuel, p, hparse, not_storesInside hmod hnd (by rw [hlen]; decide)⟩

end Nucleus.Proofs
