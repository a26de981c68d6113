import Mathlib.Data.List.Pairwise
import Nucleus.Lang.Symbol
import Nucleus.Lib.Gate
import Nucleus.Proofs.Arena
import Nucleus.Proofs.Names
import Nucleus.Spec.Scoping

/-!
# `Nucleus.Proofs.Scoping`: the resolver's stack and the scopes of the tree

The run of `nulang__resolve_symbols` on an arena that stores a module. `Resolves a env r` is its
invariant: the resolver `r` has the declarations `env` on its stack, all with different names, and
of the tree `a` it changed references only. `Check` is what decides the run at one node.

Every node is a gate (`gateAt`): it has to pass its check, and a declaration has to find room on the
stack. Each function of the pass comes to the gates of the nodes it walks over, which come from the
walk `Forest.visits`. `resolveSymbols_gated` puts them together for the whole tree, and
`resolveSymbols_decides` is the case in which all declarations find room.
-/

set_option autoImplicit false

namespace Nucleus.Proofs

open Nucleus.Lib
open Nucleus.Lib.Prog
open Nucleus.Lang

/-! ### References -/

section
variable {n : Node} {ref ref' : NodeId} {name : SourceString}

/-- A reference does not change the type. -/
@[simp] theorem setReference_type (ref : NodeId) (n : Node) :
    (setReference ref n).type = n.type := by
  unfold setReference
  split <;> rfl

/-- A reference does not change the name. -/
@[simp] theorem setReference_name (ref : NodeId) (n : Node) :
    (setReference ref n).value.name = n.value.name := by
  unfold setReference
  split
  · rename_i h
    rw [h]
    rfl
  · rfl

/-- The value with the new reference. -/
theorem setReference_value (h : n.value = .symref ref' name) :
    (setReference ref n).value = .symref ref name := by
  unfold setReference
  rw [h]

/-- The later reference stays. -/
theorem setReference_setReference (n : Node) (ref ref' : NodeId) :
    setReference ref (setReference ref' n) = setReference ref n := by
  unfold setReference
  split
  · split <;> simp_all
  · split <;> simp_all

end

/-- The node `m` is `n`, or `n` with another reference. -/
def Rereferenced (n m : Node) : Prop := m = n ∨ ∃ ref, m = setReference ref n

/-- A change of a reference is no change of a link. -/
theorem Rereferenced.links {a b : Ast} {i : NodeId} (h : Rereferenced (a.nodes i) (b.nodes i)) :
    b.links i = a.links i := by
  unfold Ast.links
  rcases h with heq | ⟨ref, heq⟩
  · rw [heq]
  · rw [heq]
    unfold setReference
    split <;> rfl

/-! ### The invariant -/

/-- The resolver `r` on the tree of `a`, with the declarations `env` on its stack. -/
structure Resolves (a : Ast) (env : List NodeId) (r : SymbolResolver) : Prop where
  symbols : r.symbols = env.map fun d => ((a.nodes d).value.name, d)
  named : ∀ d ∈ env, (a.nodes d).value.name.IsSlice
  distinct : env.Pairwise fun d d' => ¬ a.SameName d' d
  root : r.ast.root = a.root
  nodes : ∀ i, Rereferenced (a.nodes i) (r.ast.nodes i)

/-- What the resolver asks of a node, when the declarations `v.2` are in force there. -/
structure Check (a : Ast) (v : NodeId × List NodeId) : Prop where
  declares : a.IsLocal v.1 → ∀ d ∈ v.2, ¬ a.SameName d v.1
  refers : (a.nodes v.1).type = .astSymref → ∃ d ∈ v.2, a.SameName d v.1

/-- What the resolver relies on at a node: the names are slices, and a symbol has a place for its
reference. -/
structure Readable (a : Ast) (i : NodeId) : Prop where
  named : (a.nodes i).type.isNamed = true → (a.nodes i).value.name.IsSlice
  symref : (a.nodes i).type = .astSymref → ∃ ref name, (a.nodes i).value = .symref ref name

/-- The gate of the declaration `i`: no declaration in force has its name, and it has a place on the
stack. -/
def declareGate (a : Ast) (env : List NodeId) (i : NodeId) : Gate :=
  ⟨∀ d ∈ env, ¬ a.SameName d i, env.length < maxSymbols⟩

/-- The gates of the functions `fs`, which the resolver defines in this order. -/
def functionGates (a : Ast) : List NodeId → List NodeId → List Gate
  | _, [] => []
  | env, i :: fs => declareGate a env i :: functionGates a (i :: env) fs

/-- The gate of a node. -/
def gateAt (a : Ast) (v : NodeId × List NodeId) : Gate :=
  ⟨Check a v, a.IsLocal v.1 → v.2.length < maxSymbols⟩

/-- The resolver went over the nodes `vs`, from `r` to `r'`, and has `env` on its stack now. Every
symbol of `vs` refers to the one declaration of its name. -/
structure Walked (a : Ast) (vs : List (NodeId × List NodeId)) (env : List NodeId)
    (r r' : SymbolResolver) : Prop where
  resolves : Resolves a env r'
  frame : ∀ i, i ∉ vs.map Prod.fst → r'.ast.nodes i = r.ast.nodes i
  refs : ∀ v ∈ vs, (a.nodes v.1).type = .astSymref → ∃ d ∈ v.2,
    a.SameName d v.1 ∧ (∀ d' ∈ v.2, a.SameName d' v.1 → d' = d) ∧
      r'.ast.nodes v.1 = setReference d (a.nodes v.1)

section
variable {a : Ast} {env env' : List NodeId} {r r' r'' : SymbolResolver} {i id : Nat}
  {vs ws : List (NodeId × List NodeId)}

/-- The pass keeps the types. -/
theorem Resolves.type (h : Resolves a env r) (i : NodeId) :
    (r.ast.nodes i).type = (a.nodes i).type := by
  rcases h.nodes i with heq | ⟨ref, heq⟩
  · rw [heq]
  · rw [heq, setReference_type]

/-- The pass keeps the names. -/
theorem Resolves.name (h : Resolves a env r) (i : NodeId) :
    (r.ast.nodes i).value.name = (a.nodes i).value.name := by
  rcases h.nodes i with heq | ⟨ref, heq⟩
  · rw [heq]
  · rw [heq, setReference_name]

/-- The pass keeps the links. -/
theorem Resolves.links (h : Resolves a env r) (i : NodeId) : r.ast.links i = a.links i :=
  Rereferenced.links (h.nodes i)

/-- The walk over the children goes the same way. -/
theorem Resolves.iterChilds (h : Resolves a env r) (parent child : NodeId) :
    iterChilds r.ast parent child = iterChilds a parent child := by
  unfold Nucleus.Lang.iterChilds
  split
  · exact congrArg Links.firstChild (h.links parent)
  · exact congrArg Links.nextSibling (h.links child)

/-- Two declarations of one name are the same. -/
theorem Resolves.unique (h : Resolves a env r) {d d' : NodeId} (hd : d ∈ env) (hd' : d' ∈ env)
    (hsame : a.SameName d d') : d = d' := by
  by_contra hne
  have hsymm : Std.Symm fun d d' => ¬ a.SameName d' d := ⟨fun x y hxy hyx => hxy hyx.symm⟩
  exact h.distinct.forall hd hd' hne hsame.symm

/-! ### Looking up and defining -/

/-- A name in the environment is found, with the innermost declaration. -/
theorem findSymbol_found (id : Nat) (h : Resolves a env r) (hi : (a.nodes i).value.name.IsSlice)
    (hex : ∃ d ∈ env, a.SameName d i) :
    ∃ d ∈ env, a.SameName d i ∧
      findSymbol id (a.nodes i).value.name r = some (.ok d, r) := by
  have hsome : (env.find? fun d =>
      sourceStringEquals (a.nodes d).value.name (a.nodes i).value.name).isSome := by
    obtain ⟨d, hd, hsame⟩ := hex
    rw [List.find?_isSome]
    exact ⟨d, hd, (sourceStringEquals_iff (h.named d hd) hi).mpr hsame⟩
  obtain ⟨d, hfind⟩ := Option.isSome_iff_exists.mp hsome
  have hd := List.mem_of_find?_eq_some hfind
  have hequals : sourceStringEquals (a.nodes d).value.name (a.nodes i).value.name = true := by
    simpa using List.find?_some hfind
  refine ⟨d, hd, (sourceStringEquals_iff (h.named d hd) hi).mp hequals, ?_⟩
  unfold findSymbol
  rw [gets_bind_run, h.symbols, List.find?_map, Function.comp_def, hfind]
  rfl

/-- A name that is not in the environment is an error. -/
theorem findSymbol_missing (id : Nat) (h : Resolves a env r) (hi : (a.nodes i).value.name.IsSlice)
    (hno : ∀ d ∈ env, ¬ a.SameName d i) :
    ∃ r', findSymbol id (a.nodes i).value.name r = some (.error .unresolvedSymbol, r') ∧
      r'.ast = r.ast ∧ Resolves a env r' := by
  have hnone : (r.symbols.find? fun s => sourceStringEquals s.1 (a.nodes i).value.name) = none := by
    rw [h.symbols, List.find?_eq_none]
    intro s hs heq
    obtain ⟨d, hd, rfl⟩ := List.mem_map.mp hs
    exact hno d hd ((sourceStringEquals_iff (h.named d hd) hi).mp heq)
  refine ⟨{ r with error := { r.error with span := (r.ast.nodes id).span } }, ?_, rfl,
    h.symbols, h.named, h.distinct, h.root, h.nodes⟩
  unfold findSymbol
  rw [gets_bind_run, hnone]
  rfl

/-- The search decides whether the name is in the environment. -/
theorem findSymbol_decides (h : Resolves a env r) (hi : (a.nodes i).value.name.IsSlice) :
    Decides (∃ d ∈ env, a.SameName d i) (findSymbol id (a.nodes i).value.name) r
      fun d r' => r' = r ∧ d ∈ env ∧ a.SameName d i := by
  by_cases hex : ∃ d ∈ env, a.SameName d i
  · obtain ⟨d, hd, hsame, hrun⟩ := findSymbol_found id h hi hex
    exact .ok hrun hex ⟨rfl, hd, hsame⟩
  · obtain ⟨r', hrun, -⟩ := findSymbol_missing id h hi
      fun d hd hsame => hex ⟨d, hd, hsame⟩
    exact .error hrun hex

/-- A definition succeeds when no declaration in force has its name. -/
theorem defineSymbol_gated (h : Resolves a env r) (hi : (a.nodes i).value.name.IsSlice) :
    Gated [declareGate a env i] (defineSymbol (a.nodes i).value.name i) r fun _ r' =>
      Resolves a (i :: env) r' ∧ r'.ast = r.ast := by
  unfold defineSymbol
  by_cases hno : ∀ d ∈ env, ¬ a.SameName d i
  · obtain ⟨r₁, hrun, hast, h₁⟩ := findSymbol_missing i h hi hno
    have hdistinct : (i :: env).Pairwise fun d d' => ¬ a.SameName d' d :=
      List.pairwise_cons.mpr ⟨hno, h.distinct⟩
    have hlen : r₁.symbols.length = env.length := by rw [h₁.symbols, List.length_map]
    have hattempt : attempt (findSymbol i (a.nodes i).value.name) r =
        some (.ok (.error .unresolvedSymbol), r₁) := by
      rw [attempt_run, hrun]
      rfl
    by_cases hroom : env.length < maxSymbols
    · obtain ⟨u, r₂, hpush, hr₂⟩ : Returns (pushSymbol (a.nodes i).value.name i) r₁
          fun _ r' => Resolves a (i :: env) r' ∧ r'.ast = r.ast := by
        refine Returns.bind (Returns.gets ?_)
        rw [hlen, if_pos hroom]
        refine Returns.modify ⟨⟨?_, ?_, hdistinct, h₁.root, h₁.nodes⟩, hast⟩
        · rw [h₁.symbols, List.map_cons]
        · exact List.forall_mem_cons.mpr ⟨hi, h₁.named⟩
      refine .ok (by rw [bind_run_ok hattempt]; exact hpush) (fun g hg => ?_) hr₂
      obtain rfl := List.mem_singleton.mp hg
      exact ⟨hno, hroom⟩
    · refine .overflows ?_ hno hroom
      show (attempt (findSymbol i (a.nodes i).value.name) >>= _) r = none
      rw [bind_run_ok hattempt]
      show (gets (·.symbols) >>= _) r₁ = none
      rw [gets_bind_run, hlen, if_neg hroom]
      rfl
  · -- the name is taken, and the resolver stops
    have hex : ∃ d ∈ env, a.SameName d i := by
      push Not at hno
      exact hno
    obtain ⟨d, -, -, hrun⟩ := findSymbol_found i h hi hex
    have hattempt : attempt (findSymbol i (a.nodes i).value.name) r = some (.ok (.ok d), r) := by
      rw [attempt_run, hrun]
      rfl
    exact .stops (bind_run_ok hattempt) hno

/-! ### One node -/

/-- A step that leaves the tree and meets no symbol. -/
theorem Walked.of_ast (h : Resolves a env' r') (hast : r'.ast = r.ast)
    (htype : (a.nodes i).type ≠ .astSymref) : Walked a [(i, env)] env' r r' := by
  refine ⟨h, fun j _ => by rw [hast], fun v hv hsymref => ?_⟩
  obtain rfl := List.mem_singleton.mp hv
  exact absurd hsymref htype

/-- A declaration passes its gate and goes into the environment. -/
theorem resolveLocal_gated (h : Resolves a env r) (hreadable : Readable a i)
    (hlocal : a.IsLocal i) :
    Gated [gateAt a (i, env)] (defineSymbol (r.ast.nodes i).value.name i) r fun _ r' =>
      Walked a [(i, env)] (Forest.declare a.IsLocal env i) r r' := by
  have htype : (a.nodes i).type.isNamed = true ∧ (a.nodes i).type ≠ .astSymref := by
    rcases hlocal with heq | heq
    all_goals
      rw [heq]
      decide
  have hcheck : (∀ d ∈ env, ¬ a.SameName d i) ↔ Check a (i, env) :=
    ⟨fun hno => ⟨fun _ => hno, fun heq => absurd heq htype.2⟩, fun hc => hc.declares hlocal⟩
  have hgate : declareGate a env i = gateAt a (i, env) :=
    gate_eq hcheck ⟨fun hroom _ => hroom, fun hroom => hroom hlocal⟩
  rw [h.name i, ← hgate]
  refine (defineSymbol_gated h (hreadable.named htype.1)).mono ?_
  rintro - r' ⟨h', hast⟩
  rw [Forest.declare, if_pos hlocal]
  exact Walked.of_ast h' hast htype.2

/-- A use of a name decides whether it is visible, and then refers to its declaration. -/
theorem resolveSymref_decides (h : Resolves a env r) (hreadable : Readable a i)
    (htype : (a.nodes i).type = .astSymref) :
    Decides (Check a (i, env)) (do
        let ref ← findSymbol i (r.ast.nodes i).value.name
        Prog.modify fun r => { r with ast := r.ast.modifyNode i (setReference ref) }) r fun _ r' =>
      Walked a [(i, env)] (Forest.declare a.IsLocal env i) r r' := by
  have hlocal : ¬ a.IsLocal i := by
    rintro (heq | heq)
    all_goals
      rw [htype] at heq
      cases heq
  have hcheck : (∃ d ∈ env, a.SameName d i) ↔ Check a (i, env) :=
    ⟨fun hex => ⟨fun h => absurd h hlocal, fun _ => hex⟩, fun hc => hc.refers htype⟩
  have hnamed : (a.nodes i).value.name.IsSlice := hreadable.named (by rw [htype]; decide)
  rw [h.name i, Forest.declare, if_neg hlocal]
  refine Decides.iff (Decides.before ((findSymbol_decides h hnamed).mono ?_)) hcheck
  rintro - d r₁ ⟨rfl, hd, hsame⟩
  refine Returns.modify ?_
  -- a second reference replaces the first one
  have hnode : setReference d (r₁.ast.nodes i) = setReference d (a.nodes i) := by
    rcases h.nodes i with heq | ⟨ref, heq⟩
    · rw [heq]
    · rw [heq, setReference_setReference]
  refine ⟨⟨h.symbols, h.named, h.distinct, h.root, fun j => ?_⟩, fun j hj => ?_, fun v hv _ => ?_⟩
  · by_cases hj : j = i
    · subst hj
      rw [Ast.modifyNode_nodes_self, hnode]
      exact Or.inr ⟨d, rfl⟩
    · rw [Ast.modifyNode_nodes_ne _ _ hj]
      exact h.nodes j
  · exact Ast.modifyNode_nodes_ne _ _ (by simpa using hj)
  · obtain rfl := List.mem_singleton.mp hv
    refine ⟨d, hd, hsame, fun d' hd' hsame' => ?_, ?_⟩
    · exact h.unique hd' hd (hsame'.trans hsame.symm)
    · rw [Ast.modifyNode_nodes_self, hnode]

/-- The first switch of `nulang__resolve_symbols_scoped` comes to the gate of its node. -/
theorem resolveNode_gated (h : Resolves a env r) (hreadable : Readable a i) :
    Gated [gateAt a (i, env)] (resolveNode i i) r fun _ r' =>
      Walked a [(i, env)] (Forest.declare a.IsLocal env i) r r' := by
  -- a node that declares nothing needs no room
  have hroom : ¬ a.IsLocal i → (gateAt a (i, env)).room := fun hlocal h => absurd h hlocal
  unfold resolveNode
  refine Gated.after (Returns.gets ?_)
  have htype := h.type i
  split
  · rename_i heq
    exact resolveLocal_gated h hreadable (Or.inl (htype.symm.trans heq))
  · rename_i heq
    exact resolveLocal_gated h hreadable (Or.inr (htype.symm.trans heq))
  · rename_i heq
    have hlocal : ¬ a.IsLocal i := by
      rintro (hvar | harg)
      · rw [htype.symm.trans heq] at hvar
        cases hvar
      · rw [htype.symm.trans heq] at harg
        cases harg
    exact Gated.after (Returns.gets (Gated.of_decides
      (resolveSymref_decides h hreadable (htype.symm.trans heq)) Iff.rfl (hroom hlocal)))
  · rename_i hvar harg hsym
    rw [htype] at hvar harg hsym
    have hlocal : ¬ a.IsLocal i := by
      rintro (heq | heq)
      · exact hvar heq
      · exact harg heq
    refine Gated.of_decides (P := Check a (i, env)) (Decides.of_returns
      ⟨fun hl => absurd hl hlocal, fun hs => absurd hs hsym⟩ (Returns.pure ?_)) Iff.rfl
      (hroom hlocal)
    rw [Forest.declare, if_neg hlocal]
    exact Walked.of_ast h rfl hsym

/-- The second switch: behind a scope the stack is the old one. -/
theorem closeScope_returns (h : Walked a vs env' r r') (hsuffix : env <:+ env')
    (hroot : i ≠ a.root) :
    Returns (closeScope i env.length) r' fun _ r'' =>
      Walked a vs (if a.IsScope i then env else env') r r'' := by
  have htype := h.resolves.type i
  unfold closeScope
  refine Returns.bind (Returns.gets ?_)
  obtain ⟨inner, rfl⟩ := hsuffix
  -- cutting the stack back to the size it had
  have hclosed : a.IsScope i → Returns (Prog.modify fun r : SymbolResolver =>
      { r with symbols := r.symbols.drop (r.symbols.length - env.length) } :
        SymbolM Unit) r' fun _ r'' =>
      Walked a vs (if a.IsScope i then env else inner ++ env) r r'' := by
    intro hscope
    have hr' := h.resolves
    rw [if_pos hscope]
    refine Returns.modify ⟨⟨?_, ?_, ?_, hr'.root, hr'.nodes⟩, h.frame, h.refs⟩
    · simp [hr'.symbols]
    · exact fun d hd => hr'.named d (List.mem_append_right _ hd)
    · exact hr'.distinct.sublist (List.sublist_append_right _ _)
  split
  · rename_i heq
    exact hclosed (Or.inl (htype.symm.trans heq))
  · rename_i heq
    exact hclosed (Or.inr (Or.inl (htype.symm.trans heq)))
  · rename_i hcompound hfundecl
    rw [htype] at hcompound hfundecl
    have hscope : ¬ a.IsScope i := by
      rintro (heq | heq | heq)
      · exact hcompound heq
      · exact hfundecl heq
      · exact hroot heq
    rw [if_neg hscope]
    exact Returns.pure h

/-! ### The walk -/

/-- Before the first node nothing has been walked over. -/
theorem Walked.nil (h : Resolves a env r) : Walked a [] env r r :=
  ⟨h, fun _ _ => rfl, fun _ hv => absurd hv List.not_mem_nil⟩

/-- Two walks one behind the other, over different nodes. -/
theorem Walked.trans (h : Walked a vs env r r') (h' : Walked a ws env' r' r'')
    (hdisj : (vs.map Prod.fst).Disjoint (ws.map Prod.fst)) : Walked a (vs ++ ws) env' r r'' := by
  refine ⟨h'.resolves, fun i hi => ?_, fun v hv hsymref => ?_⟩
  · rw [List.map_append, List.mem_append, not_or] at hi
    rw [h'.frame i hi.2, h.frame i hi.1]
  · rcases List.mem_append.mp hv with hv | hv
    · obtain ⟨d, hd, hsame, hunique, hnode⟩ := h.refs v hv hsymref
      -- the second walk does not come to this node
      have hframe := h'.frame v.1 (hdisj (List.mem_map_of_mem hv))
      exact ⟨d, hd, hsame, hunique, hframe.trans hnode⟩
    · exact h'.refs v hv hsymref

/-- The part `f` of the tree of `a` below `parent`, and what the resolver relies on there. -/
structure Part (a : Ast) (parent : NodeId) (f : Forest Nat) : Prop where
  links : Links.Holds nodeNull a.links parent nodeNull f
  nodup : f.labels.Nodup
  ne_null : ∀ i ∈ f.labels, i ≠ nodeNull
  ne_root : ∀ i ∈ f.labels, i ≠ a.root
  readable : ∀ i ∈ f.labels, Readable a i

/-- The gates of the nodes of `f`, with the declarations `env` in front of them. -/
def gatesOf (a : Ast) (f : Forest Nat) (env : List NodeId) : List Gate :=
  (f.visits a.IsLocal a.IsScope env).map (gateAt a)

/-- The gates of a first tree: its own, those below it, and those behind it, which see its names
unless it opens a scope. -/
theorem gatesOf_cons {cs next : Forest Nat} :
    gatesOf a (.cons i cs next) env =
      ([gateAt a (i, env)] ++ gatesOf a cs (Forest.declare a.IsLocal env i)) ++
        gatesOf a next (if a.IsScope i then env else cs.envAfter a.IsLocal a.IsScope
          (Forest.declare a.IsLocal env i)) := by
  simp [gatesOf, Forest.visits]

section
variable {parent : NodeId} {cs next : Forest Nat}

/-- The children of a node are a part of the module. -/
theorem Part.children (h : Part a parent (.cons i cs next)) : Part a i cs where
  links := h.links.2.1
  nodup := (Forest.nodup_labels_cons.mp h.nodup).2.1
  ne_null := fun j hj => h.ne_null j (by simp [hj])
  ne_root := fun j hj => h.ne_root j (by simp [hj])
  readable := fun j hj => h.readable j (by simp [hj])

/-- The siblings behind a node are a part of the module. -/
theorem Part.behind (h : Part a parent (.cons i cs next)) : Part a parent next where
  links := h.links.2.2
  nodup := (Forest.nodup_labels_cons.mp h.nodup).2.2.1
  ne_null := fun j hj => h.ne_null j (by simp [hj])
  ne_root := fun j hj => h.ne_root j (by simp [hj])
  readable := fun j hj => h.readable j (by simp [hj])

/-- `nulang__resolve_symbols_scoped` at a node, when the walk over its children is understood. -/
theorem resolveSymbolsScoped_gated {n : Nat} (h : Resolves a env r)
    (hpart : Part a parent (.cons i cs next))
    (hchildren : ∀ r₁, Resolves a (Forest.declare a.IsLocal env i) r₁ →
      Gated (gatesOf a cs (Forest.declare a.IsLocal env i))
        (astForeachChilds (·.ast) (resolveSymbolsScoped n) n i) r₁ fun _ r' =>
          Walked a (cs.visits a.IsLocal a.IsScope (Forest.declare a.IsLocal env i))
            (cs.envAfter a.IsLocal a.IsScope (Forest.declare a.IsLocal env i)) r₁ r') :
    Gated ([gateAt a (i, env)] ++ gatesOf a cs (Forest.declare a.IsLocal env i))
      (resolveSymbolsScoped (n + 1) i i) r fun _ r' =>
        Walked a ((i, env) :: cs.visits a.IsLocal a.IsScope (Forest.declare a.IsLocal env i))
          (if a.IsScope i then env
            else cs.envAfter a.IsLocal a.IsScope (Forest.declare a.IsLocal env i)) r r' := by
  have hsize : r.symbols.length = env.length := by rw [h.symbols, List.length_map]
  have hdisj : ([(i, env)].map Prod.fst).Disjoint
      ((cs.visits a.IsLocal a.IsScope (Forest.declare a.IsLocal env i)).map Prod.fst) := by
    rw [Forest.map_fst_visits]
    exact List.singleton_disjoint.mpr (Forest.nodup_labels_cons.mp hpart.nodup).1.1
  have hsuffix : env <:+ cs.envAfter a.IsLocal a.IsScope (Forest.declare a.IsLocal env i) :=
    (Forest.suffix_declare env i).trans (Forest.suffix_envAfter cs _)
  unfold resolveSymbolsScoped
  -- the size of the stack at the start is where a scope is cut off at its end
  refine Gated.after (Returns.gets ?_)
  rw [hsize]
  refine Gated.bind ((resolveNode_gated h (hpart.readable i (by simp))).mono ?_)
  rintro - r₁ h₁
  refine Gated.before ((hchildren r₁ h₁.resolves).mono ?_)
  rintro - r₂ h₂
  exact closeScope_returns (h₁.trans h₂ hdisj) hsuffix (hpart.ne_root i (by simp))

end

/-- The walk over the children that follow `c`. The induction is on the forest of these children. -/
theorem foreachChild_gated {f : Forest Nat} : ∀ {N n c parent : Nat} {env : List NodeId}
    {r : SymbolResolver}, f.size < N → f.size < n → Part a parent f →
    iterChilds a parent c = f.firstId nodeNull → Resolves a env r →
    Gated (gatesOf a f env)
      (loop (foreachChild (·.ast) (resolveSymbolsScoped N) parent) n c) r fun _ r' =>
        Walked a (f.visits a.IsLocal a.IsScope env) (f.envAfter a.IsLocal a.IsScope env) r r' := by
  -- on the siblings that are left: what a child declares is in scope in those behind it
  induction f with
  | nil =>
      intro N n c parent env r _ hn _ hiter h
      obtain ⟨n, rfl⟩ : ∃ m, n = m + 1 := ⟨n - 1, by omega⟩
      refine Gated.of_returns ?_
      rw [loop_succ]
      refine Returns.bind (Returns.bind (Returns.gets ?_))
      rw [h.iterChilds, hiter, Forest.firstId_nil, if_pos rfl]
      exact Returns.pure (Returns.pure (Walked.nil h))
  | cons i cs next ihc ihn =>
      intro N n c parent env r hN hn hpart hiter h
      rw [Forest.size_cons] at hN hn
      obtain ⟨N, rfl⟩ : ∃ m, N = m + 1 := ⟨N - 1, by omega⟩
      obtain ⟨n, rfl⟩ : ∃ m, n = m + 1 := ⟨n - 1, by omega⟩
      -- where the iterator goes from a child, down and to the side
      obtain ⟨hnode, -, -⟩ := Links.holds_cons.mp hpart.links
      have hne : i ≠ nodeNull := hpart.ne_null i (by simp)
      have hfirst : iterChilds a i nodeNull = cs.firstId nodeNull := by
        rw [iterChilds, if_pos rfl]
        exact congrArg Links.firstChild hnode
      have hnext : iterChilds a parent i = next.firstId nodeNull := by
        rw [iterChilds, if_neg hne]
        exact congrArg Links.nextSibling hnode
      -- no node is visited twice, so the second part of the walk keeps what the first resolved
      have hdisj : (((i, env) :: cs.visits a.IsLocal a.IsScope
          (Forest.declare a.IsLocal env i)).map Prod.fst).Disjoint ((next.visits a.IsLocal a.IsScope
            (if a.IsScope i then env else cs.envAfter a.IsLocal a.IsScope
              (Forest.declare a.IsLocal env i))).map Prod.fst) := by
        obtain ⟨⟨-, hi⟩, -, -, hdisj⟩ := Forest.nodup_labels_cons.mp hpart.nodup
        rw [List.map_cons, Forest.map_fst_visits, Forest.map_fst_visits]
        exact List.disjoint_cons_left.mpr ⟨hi, hdisj⟩
      rw [loop_succ, gatesOf_cons]
      refine Gated.bind (Gated.after (Returns.gets ?_))
      rw [h.iterChilds, hiter, Forest.firstId_cons, if_neg hne]
      refine Gated.before ((resolveSymbolsScoped_gated h hpart fun r₁ h₁ => ?_).mono ?_)
      · refine Gated.before ((ihc (by omega) (by omega) hpart.children hfirst h₁).mono ?_)
        exact fun _ _ hwalked => Returns.pure hwalked
      · rintro - r₁ h₁
        refine Returns.pure ((ihn (by omega) (by omega) hpart.behind hnext h₁.resolves).mono ?_)
        exact fun _ r₂ h₂ => h₁.trans h₂ hdisj

/-! ### The functions -/

/-- The functions among the top nodes of `f`. -/
def functions (a : Ast) (f : Forest Nat) : List Nat :=
  f.roots.filter fun i => (a.nodes i).type = .astFundecl

/-- The loop of `nulang__resolve_symbols`, at the children of the root that follow `c`. -/
theorem resolveFundecl_gated {f : Forest Nat} : ∀ {n c : Nat} {env : List NodeId}
    {r : SymbolResolver}, f.size < n → Links.Holds nodeNull a.links a.root nodeNull f →
    (∀ i ∈ f.roots, i ≠ nodeNull) →
    (∀ i ∈ functions a f, (a.nodes i).value.name.IsSlice) →
    iterChilds a a.root c = f.firstId nodeNull → Resolves a env r →
    Gated (functionGates a env (functions a f)) (loop resolveFundecl n c) r fun _ r' =>
      Resolves a ((functions a f).reverse ++ env) r' ∧ r'.ast = r.ast := by
  induction f with
  | nil =>
      intro n c env r hn _ _ _ hiter h
      obtain ⟨n, rfl⟩ : ∃ m, n = m + 1 := ⟨n - 1, by omega⟩
      refine Gated.of_returns ?_
      rw [loop_succ]
      refine Returns.bind (Returns.bind (Returns.gets ?_))
      rw [h.root, h.iterChilds, hiter, Forest.firstId_nil, if_pos rfl]
      exact Returns.pure (Returns.pure ⟨h, rfl⟩)
  | cons i cs next _ ih =>
      intro n c env r hn hlinks hnull hnamed hiter h
      rw [Forest.size_cons] at hn
      obtain ⟨n, rfl⟩ : ∃ m, n = m + 1 := ⟨n - 1, by omega⟩
      obtain ⟨hnode, -, hlinks⟩ := Links.holds_cons.mp hlinks
      rw [Forest.roots_cons, List.forall_mem_cons] at hnull
      -- the loop goes on to the next child of the root
      have hnext : iterChilds a a.root i = next.firstId nodeNull := by
        rw [iterChilds, if_neg hnull.1]
        exact congrArg Links.nextSibling hnode
      rw [loop_succ]
      -- a function is defined, and so in scope for the rest; other nodes are passed over
      by_cases hfun : (a.nodes i).type = .astFundecl
      · have hcons : functions a (.cons i cs next) = i :: functions a next := by
          simp [functions, hfun]
        rw [hcons, List.forall_mem_cons] at hnamed
        rw [hcons, List.reverse_cons, List.append_assoc, List.singleton_append]
        rw [functionGates, ← List.singleton_append]
        refine Gated.bind (Gated.after (Returns.gets ?_))
        rw [h.root, h.iterChilds, hiter, Forest.firstId_cons, if_neg hnull.1]
        refine Gated.after (Returns.gets ?_)
        rw [if_pos ((h.type i).trans hfun), h.name i]
        refine Gated.before ((defineSymbol_gated h hnamed.1).mono ?_)
        rintro - r₁ ⟨h₁, hast⟩
        refine Returns.pure ((ih (by omega) hlinks hnull.2 hnamed.2 hnext h₁).mono ?_)
        exact fun _ r₂ h₂ => ⟨h₂.1, h₂.2.trans hast⟩
      · have hskip : functions a (.cons i cs next) = functions a next := by
          simp [functions, hfun]
        rw [hskip] at hnamed
        rw [hskip]
        refine Gated.after (Returns.bind (Returns.gets ?_))
        rw [h.root, h.iterChilds, hiter, Forest.firstId_cons, if_neg hnull.1]
        refine Returns.bind (Returns.gets ?_)
        rw [if_neg fun heq => hfun ((h.type i).symm.trans heq)]
        exact Returns.pure (ih (n := n) (by omega) hlinks hnull.2 hnamed hnext h)

/-- The functions pass their gates exactly when all names are different. -/
theorem functionGates_pass_iff {fs : List NodeId}
    (henv : env.Pairwise fun d d' => ¬ a.SameName d' d) :
    (∀ g ∈ functionGates a env fs, g.passes) ↔
      (fs.reverse ++ env).Pairwise fun d d' => ¬ a.SameName d' d := by
  induction fs generalizing env with
  | nil => exact iff_of_true (fun g hg => absurd hg List.not_mem_nil) henv
  | cons i fs ih =>
      rw [functionGates, List.forall_mem_cons, List.reverse_cons, List.append_assoc,
        List.singleton_append]
      constructor
      · rintro ⟨hi, hfs⟩
        exact (ih (List.pairwise_cons.mpr ⟨hi, henv⟩)).mp hfs
      · intro hall
        have hcons := hall.sublist (List.sublist_append_right _ _)
        exact ⟨(List.pairwise_cons.mp hcons).1, (ih hcons).mpr hall⟩

/-- They have room when all fit on the stack. -/
theorem functionGates_room {fs : List NodeId} (h : fs.length + env.length ≤ maxSymbols) :
    ∀ g ∈ functionGates a env fs, g.room := by
  induction fs generalizing env with
  | nil => exact fun g hg => absurd hg List.not_mem_nil
  | cons i fs ih =>
      rw [List.length_cons] at h
      rw [functionGates, List.forall_mem_cons]
      refine ⟨show env.length < maxSymbols by omega, ih ?_⟩
      rw [List.length_cons]
      omega

/-! ### The whole tree -/

/-- `nulang__resolve_symbols` from a resolver without symbols: it comes to the gates of the
functions first, and then to those of the other nodes. -/
theorem resolveSymbols_gated {cs : Forest Nat} {e : ErrorData} {fuel : Nat}
    (hmod : a.IsModule (.tree 0 cs)) (hfuel : cs.size + 1 < fuel) :
    Gated (functionGates a [] (functions a cs) ++ gatesOf a cs (functions a cs).reverse)
      (resolveSymbols fuel) ⟨a, [], e⟩ fun _ r' =>
        Walked a (cs.visits a.IsLocal a.IsScope (functions a cs).reverse)
          (cs.envAfter a.IsLocal a.IsScope (functions a cs).reverse) ⟨a, [], e⟩ r' := by
  obtain ⟨hnode, hlinks⟩ := Links.holds_tree.mp hmod.links
  have hmem : ∀ i ∈ cs.labels, i ∈ (Forest.tree 0 cs).labels := fun i hi => by simp [hi]
  obtain ⟨⟨h0, -⟩, hnd, -, -⟩ := Forest.nodup_labels_cons.mp hmod.nodup
  have hstart : Resolves a [] ⟨a, [], e⟩ :=
    ⟨rfl, fun _ hd => absurd hd List.not_mem_nil, List.Pairwise.nil, rfl, fun _ => Or.inl rfl⟩
  have hfirst : iterChilds a a.root nodeNull = cs.firstId nodeNull := by
    rw [iterChilds, if_pos rfl, hmod.root]
    exact congrArg Links.firstChild hnode
  have hnamed : ∀ i ∈ functions a cs, (a.nodes i).value.name.IsSlice := by
    intro i hi
    obtain ⟨hi, htype⟩ := List.mem_filter.mp hi
    refine hmod.named i (hmem i (Forest.mem_labels_of_mem_roots hi)) ?_
    rw [of_decide_eq_true htype]
    decide
  have hpart : Part a 0 cs := by
    refine ⟨hlinks, hnd, fun i hi => hmod.ne_null i (hmem i hi), ?_,
      fun i hi => ⟨hmod.named i (hmem i hi), hmod.symref i (hmem i hi)⟩⟩
    rintro i hi rfl
    rw [hmod.root] at hi
    exact h0 hi
  have hroot : (a.nodes 0).type = .astModule := hmod.type
  obtain ⟨fuel, rfl⟩ : ∃ m, fuel = m + 1 := ⟨fuel - 1, by omega⟩
  have hfunctions := resolveFundecl_gated (n := fuel + 1) (by omega) (hmod.root.symm ▸ hlinks)
    (fun i hi => hmod.ne_null i (hmem i (Forest.mem_labels_of_mem_roots hi))) hnamed hfirst hstart
  rw [List.append_nil] at hfunctions
  refine Gated.bind (hfunctions.mono ?_)
  rintro - r ⟨h, hast⟩
  refine Gated.after (Returns.gets ?_)
  rw [h.root, hmod.root]
  -- the root is no declaration, no symbol and no scope that is closed
  unfold resolveSymbolsScoped
  refine Gated.after (Returns.gets (Gated.after ⟨(), r, ?_, ?_⟩))
  · unfold resolveNode
    rw [gets_bind_run, h.type, hroot]
    rfl
  · refine Gated.before (Gated.before ((foreachChild_gated (by omega) (by omega) hpart
      (hmod.root ▸ hfirst) h).mono ?_))
    rintro - r' hwalked
    refine Returns.pure ⟨(), r', ?_, hwalked.resolves, fun i hi => ?_, hwalked.refs⟩
    · unfold closeScope
      rw [gets_bind_run, hwalked.resolves.type, hroot]
      rfl
    · rw [hwalked.frame i hi, hast]

/-- All gates are passed when the functions have different names and every node passes its check. -/
theorem gates_pass_iff {cs : Forest Nat} :
    (∀ g ∈ functionGates a [] (functions a cs) ++ gatesOf a cs (functions a cs).reverse,
      g.passes) ↔
      (functions a cs).reverse.Pairwise (fun d d' => ¬ a.SameName d' d) ∧
        ∀ v ∈ cs.visits a.IsLocal a.IsScope (functions a cs).reverse, Check a v := by
  rw [List.forall_mem_append, functionGates_pass_iff List.Pairwise.nil, List.append_nil, gatesOf,
    List.forall_mem_map]
  rfl

/-- With room for all declarations, `nulang__resolve_symbols` succeeds exactly when the functions
have different names and every node passes its check. -/
theorem resolveSymbols_decides {cs : Forest Nat} {e : ErrorData} {fuel : Nat}
    (hmod : a.IsModule (.tree 0 cs)) (hfuel : cs.size + 1 < fuel)
    (hfits : (functions a cs).length ≤ maxSymbols)
    (hroom : ∀ v ∈ cs.visits a.IsLocal a.IsScope (functions a cs).reverse, a.IsLocal v.1 →
      v.2.length < maxSymbols) :
    Decides ((functions a cs).reverse.Pairwise (fun d d' => ¬ a.SameName d' d) ∧
        ∀ v ∈ cs.visits a.IsLocal a.IsScope (functions a cs).reverse, Check a v)
      (resolveSymbols fuel) ⟨a, [], e⟩ fun _ r' =>
        Walked a (cs.visits a.IsLocal a.IsScope (functions a cs).reverse)
          (cs.envAfter a.IsLocal a.IsScope (functions a cs).reverse) ⟨a, [], e⟩ r' := by
  refine ((resolveSymbols_gated hmod hfuel).decides ?_).iff gates_pass_iff
  rw [List.forall_mem_append, gatesOf, List.forall_mem_map]
  exact ⟨functionGates_room (by simpa using hfits), hroom⟩

end

end Nucleus.Proofs
