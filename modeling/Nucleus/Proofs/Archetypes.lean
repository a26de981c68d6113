import Nucleus.Proofs.Frames
import Nucleus.Proofs.Lookup
import Nucleus.Proofs.Visibility
import Nucleus.Proofs.Walk
import Nucleus.Spec.Archetypes

/-!
# `Nucleus.Proofs.Archetypes`: the resolution of archetypes

`nulang__resolve_archetypes` is a walk in pre-order, so its run is the list of its nodes, one
behind the other (`Prog.visitAll_cases`). `Stored vm a e done s` is the invariant: of the tree `a`,
the resolver `s` changed the archetypes of the nodes `done` only.

The nodes of a parse are `Storable`: what the pass stores into a node with an archetype name is
the archetype of this node. `resolveArchetypes_resolved` puts the pieces together.
-/

set_option autoImplicit false

namespace Nucleus.Spec

open Nucleus.Lib
open Nucleus.Lang

/-! ### The entity types of a derivation -/

/-- An entity type comes with the name of its archetype. -/
def Kind.EntityNamed : Kind → Prop
  | .fundecl _ type _ | .argdecl _ type | .vardecl _ type =>
      type.primitive = .entity → type.archetypeName ≠ none
  | _ => True

/-- All tokens among the results are tokens of the language. -/
def Tokens (rs : List LexResult) : Prop := ∀ t, .ok t ∈ rs → t.Valid

variable {rs rs' : List LexResult}

/-- A first token is valid and so are the others. -/
@[simp] theorem tokens_cons {t : Token} : Tokens (.ok t :: rs) ↔ t.Valid ∧ Tokens rs := by
  simp [Tokens, or_imp, forall_and]

/-- What is left of valid tokens is valid. -/
theorem Tokens.tail (h : Tokens rs) : Tokens rs.tail := fun t ht => h t (List.mem_of_mem_tail ht)

/-- A type with an archetype has the name of one. -/
theorem DerivesType.entityNamed {ty : Vartype} (h : DerivesType rs ty rs') (hrs : Tokens rs) :
    (ty.primitive = .entity → ty.archetypeName ≠ none) ∧ Tokens rs' := by
  cases h with
  | primitive hc ht =>
      simp only [tokens_cons] at hrs
      -- no token of a primitive carries the entity type
      exact ⟨fun heq => absurd heq (hrs.2.1.2 ht).2, hrs.2.2⟩
  | archetype hc ht =>
      simp only [tokens_cons] at hrs
      exact ⟨fun _ => by simp, hrs.2.2⟩

/-- An optional type with an archetype has the name of one. -/
theorem DerivesTypeOpt.entityNamed {ty : Vartype} (h : DerivesTypeOpt rs ty rs')
    (hrs : Tokens rs) : (ty.primitive = .entity → ty.archetypeName ≠ none) ∧ Tokens rs' := by
  cases h with
  | absent _ _ => exact ⟨fun heq => by simp [noType] at heq, hrs⟩
  | present h => exact h.entityNamed hrs

/-- All kinds of the syntax name the archetypes of their entity types. -/
def EntitiesNamed (s : Syn) : Prop := ∀ k ∈ s.labels, k.EntityNamed

@[simp] theorem entitiesNamed_nil : EntitiesNamed .nil := fun _ hk => absurd hk List.not_mem_nil

/-- A tree has its archetypes named at the root and below. -/
@[simp] theorem entitiesNamed_tree {k : Kind} {cs : Syn} :
    EntitiesNamed (.tree k cs) ↔ k.EntityNamed ∧ EntitiesNamed cs := by
  simp [EntitiesNamed]

@[simp] theorem entitiesNamed_leaf {k : Kind} : EntitiesNamed (.leaf k) ↔ k.EntityNamed := by
  simp [Forest.leaf]

/-- Two pieces side by side have their archetypes named. -/
@[simp] theorem entitiesNamed_append {s t : Syn} :
    EntitiesNamed (s ++ t) ↔ EntitiesNamed s ∧ EntitiesNamed t := by
  simp only [EntitiesNamed, Forest.labels_append, List.forall_mem_append]

/-- A member adds no archetype. -/
theorem entitiesNamed_memberOf {o o' : Syn} {name : SourceString}
    (h : memberOf o name = some o') (ho : EntitiesNamed o) : EntitiesNamed o' := by
  unfold memberOf at h
  split at h
  · cases h
  · split at h
    · cases h
      exact entitiesNamed_tree.mpr ⟨trivial, ho⟩
    · cases h
      exact entitiesNamed_tree.mpr ⟨trivial, ho⟩
    · obtain ⟨f, -, rfl⟩ := Option.map_eq_some_iff.mp h
      refine entitiesNamed_tree.mpr ⟨trivial, fun k hk => ho k ?_⟩
      simp [hk]
    · cases h

/-- The entity types in the syntax of a derivation are those that the source spells with the name
of an archetype. -/
theorem Derives.entitiesNamed {c : Cat} {s : Syn} (h : Derives c rs s rs') (hrs : Tokens rs)
    (hbefore : EntitiesNamed c.before) : EntitiesNamed s ∧ Tokens rs' := by
  induction h with
  | chainDot _ _ hmember _ ih =>
      simp only [tokens_cons] at hrs
      exact ih hrs.2.2 (entitiesNamed_memberOf hmember hbefore)
  | insert _ _ _ =>
      simp only [tokens_cons] at hrs
      exact ⟨by simp [Kind.EntityNamed], hrs.2.2.2.tail⟩
  | singleton _ _ _ =>
      simp only [tokens_cons] at hrs
      exact ⟨by simp [Kind.EntityNamed], hrs.2.2.2.tail⟩
  -- a type comes from `DerivesType`, where an entity type has a name
  | paramsLast _ hty _ _ =>
      obtain ⟨hnamed, hrs'⟩ := hty.entityNamed (tokens_cons.mp hrs).2
      exact ⟨entitiesNamed_leaf.mpr hnamed, hrs'⟩
  | paramsComma _ hty _ _ ih =>
      obtain ⟨hnamed, hrs₁⟩ := hty.entityNamed (tokens_cons.mp hrs).2
      obtain ⟨hps, hrs'⟩ := ih (tokens_cons.mp hrs₁).2 entitiesNamed_nil
      exact ⟨entitiesNamed_append.mpr ⟨entitiesNamed_leaf.mpr hnamed, hps⟩, hrs'⟩
  | vardecl _ _ hty _ _ ih =>
      simp only [tokens_cons] at hrs
      obtain ⟨hnamed, hrs₁⟩ := hty.entityNamed hrs.2.2
      obtain ⟨he, hrs'⟩ := ih (tokens_cons.mp hrs₁).2 entitiesNamed_nil
      exact ⟨entitiesNamed_tree.mpr ⟨hnamed, he⟩, hrs'⟩
  | fundecl _ _ _ _ _ hty _ _ ihps ihb =>
      simp only [tokens_cons] at hrs
      obtain ⟨hps, hrs₁⟩ := ihps hrs.2.2.2 entitiesNamed_nil
      obtain ⟨hnamed, hrs₂⟩ := hty.entityNamed (tokens_cons.mp hrs₁).2
      obtain ⟨hb, hrs'⟩ := ihb hrs₂ entitiesNamed_nil
      refine ⟨entitiesNamed_tree.mpr ⟨hnamed, ?_⟩, (tokens_cons.mp hrs').2⟩
      exact entitiesNamed_append.mpr ⟨hps, entitiesNamed_tree.mpr ⟨trivial, hb⟩⟩
  | _ => simp_all [Cat.before, Kind.EntityNamed]

end Nucleus.Spec

namespace Nucleus.Proofs

open Nucleus.Lib
open Nucleus.Lib.Prog
open Nucleus.Lang
open Nucleus.Spec
open Nucleus.Vm (TableManager TableMemory tableManagerInit archetypeFind uidn)

/-! ### Storing an archetype -/

section
variable {n : Node} {h h' : Archetype} {ref : NodeId}

/-- The later handle stays. -/
theorem setArchetype_setArchetype (h h' : Archetype) (n : Node) :
    setArchetype h (setArchetype h' n) = setArchetype h n := by
  obtain ⟨type, value⟩ := n
  cases value <;> rfl

/-- A handle does not change the type. -/
@[simp] theorem setArchetype_type (h : Archetype) (n : Node) :
    (setArchetype h n).type = n.type := by
  obtain ⟨type, value⟩ := n
  cases value <;> rfl

/-- A handle does not change the span. -/
@[simp] theorem setArchetype_span (h : Archetype) (n : Node) :
    (setArchetype h n).span = n.span := by
  obtain ⟨type, value⟩ := n
  cases value <;> rfl

/-- A handle does not change the name. -/
@[simp] theorem setArchetype_archetypeName (h : Archetype) (n : Node) :
    (setArchetype h n).archetypeName = n.archetypeName := by
  obtain ⟨type, value⟩ := n
  cases value <;> rfl

/-- What the pass relies on at a node: an entity type has the name of its archetype, and a node
with an archetype name has a place for the archetype. -/
structure Storable (n : Node) : Prop where
  named : n.type ∈ [.astVardecl, .astArgdecl, .astFundecl] →
    n.value.vartype.primitive = .entity → n.value.vartype.archetypeName ≠ none
  stores : n.archetypeName ≠ none → ∀ h, (setArchetype h n).value.archetype = some h

/-- A node with a value of its own and the name of its archetype can be stored to. -/
theorem storable_of_kind (hkind : n.kind ≠ .module) (hnamed : n.kind.EntityNamed) :
    Storable n := by
  unfold Node.kind at hkind hnamed
  constructor
  · intro htype
    split at hkind <;> simp_all [Kind.EntityNamed, NodeValue.vartype]
  · intro hname h
    unfold Node.archetypeName at hname
    unfold setArchetype
    split at hkind <;> simp_all [NodeValue.archetype]

/-- A module names no archetype. -/
theorem storable_of_module (htype : n.type = .astModule) : Storable n :=
  ⟨fun hmem => by simp [htype] at hmem, fun hname => by simp [Node.archetypeName, htype] at hname⟩

/-- Another reference is no change to what the pass reads or stores. -/
theorem Storable.setReference (hn : Storable n) (ref : NodeId) :
    Storable (setReference ref n) := by
  -- a reference is stored beside the names, and never over them
  have hname : (Lang.setReference ref n).archetypeName = n.archetypeName := by
    obtain ⟨type, value⟩ := n
    cases value <;> rfl
  have hvartype : (Lang.setReference ref n).value.vartype = n.value.vartype := by
    obtain ⟨type, value⟩ := n
    cases value <;> rfl
  have hplace : ∀ h, (setArchetype h (Lang.setReference ref n)).value.archetype =
      (setArchetype h n).value.archetype := by
    intro h
    obtain ⟨type, value⟩ := n
    cases value <;> rfl
  refine ⟨fun htype => ?_, fun h => ?_⟩
  · rw [setReference_type] at htype
    rw [hvartype]
    exact hn.named htype
  · rw [hname] at h
    intro archetype
    rw [hplace]
    exact hn.stores h archetype

/-- Another archetype is no change either. -/
theorem Storable.setArchetype (hn : Storable n) (h : Archetype) : Storable (setArchetype h n) := by
  have hprimitive : (Lang.setArchetype h n).value.vartype.primitive =
      n.value.vartype.primitive := by
    obtain ⟨type, value⟩ := n
    cases value <;> rfl
  have hname : (Lang.setArchetype h n).value.vartype.archetypeName =
      n.value.vartype.archetypeName := by
    obtain ⟨type, value⟩ := n
    cases value <;> rfl
  refine ⟨fun htype => ?_, fun hne h' => ?_⟩
  · rw [setArchetype_type] at htype
    rw [hprimitive, hname]
    exact hn.named htype
  · rw [setArchetype_archetypeName] at hne
    rw [setArchetype_setArchetype]
    exact hn.stores hne h'

end

/-- The node `n` with the archetype that the pass stores into it. -/
def storeArchetype (vm : TableManager) (n : Node) : Node :=
  match n.archetypeName with
  | none => n
  | some name => setArchetype ((archetypeFind vm (uidn name.p name.n)).getD archetypeNull) n

/-- The resolver `s` comes from the tree `a` by storing the archetypes of the nodes `done`, and its
error data is `error`. -/
structure Stored (vm : TableManager) (a : Ast) (error : ErrorData) (done : List NodeId)
    (s : ArchetypeResolver) : Prop where
  arena : s.ast = { a with nodes := s.ast.nodes }
  error : s.error = error
  nodes : ∀ i, s.ast.nodes i = if i ∈ done then storeArchetype vm (a.nodes i) else a.nodes i

section
variable {vm : TableManager} {a : Ast} {e : ErrorData} {done : List NodeId}
  {s : ArchetypeResolver} {i : NodeId} {name : SourceString} {handle : Archetype}

/-- A node without an archetype is left alone. -/
theorem storeArchetype_none {n : Node} (h : n.archetypeName = none) : storeArchetype vm n = n := by
  unfold storeArchetype
  rw [h]

/-- A node whose archetype is found gets the handle. -/
theorem storeArchetype_some {n : Node} (h : n.archetypeName = some name)
    (hfind : archetypeFind vm (uidn name.p name.n) = some handle) :
    storeArchetype vm n = setArchetype handle n := by
  unfold storeArchetype
  rw [h]
  simp only [hfind, Option.getD_some]

/-- A node of the run is the node of the tree, or this node with an archetype. -/
theorem Stored.node (h : Stored vm a e done s) (i : NodeId) :
    s.ast.nodes i = a.nodes i ∨ ∃ handle, s.ast.nodes i = setArchetype handle (a.nodes i) := by
  rw [h.nodes i]
  split
  · unfold storeArchetype
    split
    · exact Or.inl rfl
    · exact Or.inr ⟨_, rfl⟩
  · exact Or.inl rfl

/-- Storing keeps a node one that can be stored to. -/
theorem Stored.storable (h : Stored vm a e done s) (hn : Storable (a.nodes i)) :
    Storable (s.ast.nodes i) := by
  rcases h.node i with heq | ⟨handle, heq⟩
  · rw [heq]
    exact hn
  · rw [heq]
    exact hn.setArchetype handle

/-- Storing keeps the names. -/
theorem Stored.archetypeName (h : Stored vm a e done s) (i : NodeId) :
    (s.ast.nodes i).archetypeName = (a.nodes i).archetypeName := by
  rcases h.node i with heq | ⟨handle, heq⟩
  · rw [heq]
  · rw [heq, setArchetype_archetypeName]

/-- Storing keeps the spans. -/
theorem Stored.span (h : Stored vm a e done s) (i : NodeId) :
    (s.ast.nodes i).span = (a.nodes i).span := by
  rcases h.node i with heq | ⟨handle, heq⟩
  · rw [heq]
  · rw [heq, setArchetype_span]

/-- A visit of a node without an archetype name. -/
theorem Stored.skip (h : Stored vm a e done s) (hname : (a.nodes i).archetypeName = none) :
    Stored vm a e (done ++ [i]) s := by
  refine ⟨h.arena, h.error, fun j => ?_⟩
  rw [h.nodes j]
  by_cases hj : j = i
  · subst hj
    simp [storeArchetype_none hname]
  · simp [hj]

/-- A visit of a node with an archetype name, which stores what the registry has for it. -/
theorem Stored.store (h : Stored vm a e done s) (hname : (a.nodes i).archetypeName = some name)
    (hfind : archetypeFind vm (uidn name.p name.n) = some handle) (e' : ErrorData) :
    Stored vm a e' (done ++ [i]) ⟨s.ast.modifyNode i (setArchetype handle), e'⟩ := by
  refine ⟨?_, rfl, fun j => ?_⟩
  · rw [Ast.modifyNode, h.arena]
  · by_cases hj : j = i
    · subst hj
      rw [Ast.modifyNode_nodes_self, if_pos (by simp), storeArchetype_some hname hfind]
      rcases h.node j with heq | ⟨handle', heq⟩
      · rw [heq]
      · rw [heq, setArchetype_setArchetype]
    · rw [Ast.modifyNode_nodes_ne _ _ hj, h.nodes j]
      simp [hj]

/-! ### One node -/

/-- The switch of `nulang__resolve_archetype` looks up the archetype name of the node. -/
theorem resolveNodeArchetype_eq (hn : Storable (s.ast.nodes i)) :
    resolveNodeArchetype vm i s =
      match (s.ast.nodes i).archetypeName with
      | none => some (.ok (), s)
      | some name => findArchetype vm i name (s.ast.nodes i).span s := by
  have hvartype : (s.ast.nodes i).type ∈ [.astVardecl, .astArgdecl, .astFundecl] →
      resolveVartype vm i (s.ast.nodes i).span (s.ast.nodes i).value.vartype s =
        match (if (s.ast.nodes i).value.vartype.primitive = .entity then
          (s.ast.nodes i).value.vartype.archetypeName else none) with
        | none => some (.ok (), s)
        | some name => findArchetype vm i name (s.ast.nodes i).span s := by
    intro htype
    unfold resolveVartype
    by_cases hentity : (s.ast.nodes i).value.vartype.primitive = .entity
    · -- an entity type of the parser has a name
      obtain ⟨name, hname⟩ := Option.ne_none_iff_exists'.mp (hn.named htype hentity)
      rw [if_pos hentity, if_pos hentity, hname]
      rfl
    · rw [if_neg hentity, if_neg hentity]
      rfl
  unfold resolveNodeArchetype Node.archetypeName
  rw [gets_bind_run]
  cases htype : (s.ast.nodes i).type
  case astVardecl => exact hvartype (by simp [htype])
  case astArgdecl => exact hvartype (by simp [htype])
  case astFundecl => exact hvartype (by simp [htype])
  all_goals rfl

/-- One node of the walk, in a registry that answers every search. -/
theorem visit_node (hvm : ∀ u, ∃ handle, archetypeFind vm u = some handle)
    (hn : Storable (a.nodes i)) (h : Stored vm a e done s) :
    Visit (Stored vm a e)
      (fun done i error s => error = .archetypeNotFound ∧
        Stored vm a { e with span := (a.nodes i).span } (done ++ [i]) s)
      (fun i => (a.nodes i).FindsArchetype vm) (resolveNodeArchetype vm) done i s := by
  have hrun := @resolveNodeArchetype_eq vm s i (h.storable hn)
  rw [h.archetypeName, h.span] at hrun
  cases hname : (a.nodes i).archetypeName with
  | none =>
      rw [hname] at hrun
      refine .ok hrun (fun name hsome => ?_) (h.skip hname)
      rw [hname] at hsome
      cases hsome
  | some name =>
      obtain ⟨handle, hfind⟩ := hvm (uidn name.p name.n)
      have hfinds : (a.nodes i).FindsArchetype vm ↔ handle ≠ archetypeNull := by
        constructor
        · rintro hall rfl
          exact hall name hname hfind
        · intro hne name' hname'
          cases hname.symm.trans hname'
          rw [hfind]
          exact fun heq => hne (Option.some.inj heq)
      rw [hname] at hrun
      simp only [findArchetype, hfind, modify_bind_run] at hrun
      -- the handle is stored in either case, and the null handle is the error
      by_cases hnull : handle = archetypeNull
      · rw [if_pos hnull] at hrun
        have herror := h.store hname hfind { e with span := (a.nodes i).span }
        refine .error (hrun.trans ?_) (fun hP => hfinds.mp hP hnull) ⟨rfl, herror⟩
        rw [← h.error]
        rfl
      · rw [if_neg hnull] at hrun
        have hok := h.store hname hfind e
        refine .ok (hrun.trans ?_) (hfinds.mpr hnull) hok
        rw [← h.error]
        rfl

/-! ### The whole tree -/

/-- Storing changes handles only. -/
theorem Stored.same (h : Stored vm a e done s) (i : NodeId) :
    (s.ast.nodes i).eraseArchetype = (a.nodes i).eraseArchetype := by
  rcases h.node i with heq | ⟨handle, heq⟩
  · rw [heq]
  · rw [heq, setArchetype_eraseArchetype]

/-- A node without an archetype is as before. -/
theorem Stored.unnamed (h : Stored vm a e done s) (hname : (a.nodes i).archetypeName = none) :
    s.ast.nodes i = a.nodes i := by
  rw [h.nodes i, storeArchetype_none hname, ite_self]

/-- A node that has not been visited is as before. -/
theorem Stored.outside (h : Stored vm a e done s) (hi : i ∉ done) : s.ast.nodes i = a.nodes i := by
  rw [h.nodes i, if_neg hi]

/-- Before the first visit nothing is stored. -/
theorem stored_nil : Stored vm a e [] ⟨a, e⟩ := ⟨rfl, rfl, fun i => by simp⟩

/-- `nulang__resolve_archetypes` on a tree of storable nodes. -/
theorem resolveArchetypes_run {cs : Forest Nat} {fuel : Nat}
    (hvm : ∀ u, ∃ handle, archetypeFind vm u = some handle) (hroot : a.root = 0)
    (hlinks : Links.Holds nodeNull a.links nodeNull nodeNull (.tree 0 cs))
    (hnull : ∀ i ∈ cs.labels, i ≠ nodeNull)
    (hstorable : ∀ i ∈ (Forest.tree 0 cs).labels, Storable (a.nodes i))
    (hfuel : cs.size + 1 < fuel) :
    ∃ result r, resolveArchetypes vm fuel ⟨a, e⟩ = some (result, r) ∧
      Resolved vm (.tree 0 cs) ⟨a, e⟩ result r := by
  -- the walk over the links visits the nodes of the tree in order
  have hwalk : resolveArchetypes vm fuel ⟨a, e⟩ =
      visitAll (resolveNodeArchetype vm) (Forest.tree 0 cs).labels ⟨a, e⟩ := by
    unfold resolveArchetypes
    rw [gets_bind_run, hroot, resolveArchetype_eq_walk]
    refine walk_tree (fun i => ?_) hfuel hlinks hnull
    exact fun _ _ _ hrun => links_eraseArchetype (keeps_resolveNodeArchetype i _ _ _ hrun)
  -- either every node finds its archetype, or the first that does not ends the walk
  have hcases := visitAll_cases (fun done i hi s hs => visit_node hvm (hstorable i hi) hs)
    (stored_nil : Stored vm a e [] ⟨a, e⟩)
  rw [hwalk]
  rcases hcases with ⟨r, hrun, hall, hstored⟩ |
    ⟨pre, i, post, _, r, hrun, hlabels, hpre, hi, rfl, hstored⟩
  · rw [List.nil_append] at hstored
    refine ⟨_, r, hrun, iff_of_true rfl hall, fun _ j hj name hname => ?_,
      fun hne => absurd rfl hne, hstored.same, fun j => hstored.unnamed,
      fun j => hstored.outside, hstored.arena⟩
    obtain ⟨handle, hfind⟩ := hvm (uidn name.p name.n)
    refine ⟨handle, hfind, fun hnull => hall j hj name hname (hnull ▸ hfind), ?_⟩
    rw [hstored.nodes j, if_pos hj, storeArchetype_some hname hfind]
    exact (hstorable j hj).stores (by simp [hname]) handle
  · rw [List.nil_append] at hstored
    -- the visited nodes are nodes of the tree
    have hmem : ∀ j ∈ pre ++ [i], j ∈ (Forest.tree 0 cs).labels := by
      intro j hj
      rw [hlabels]
      simp only [List.mem_append, List.mem_cons] at hj ⊢
      tauto
    have herror : (.error .archetypeNotFound : Except Error Unit) ≠ .ok () := by simp
    refine ⟨_, r, hrun, iff_of_false herror (fun hall => ?_), fun h => absurd h herror,
      fun _ => ⟨rfl, pre, i, post, hlabels, hpre, hi, hstored.error⟩, hstored.same,
      fun j => hstored.unnamed, fun j hj => hstored.outside fun h => hj (hmem j h), hstored.arena⟩
    exact hi (hall i (hmem i (by simp)))

end

/-! ### The trees of the parser -/

/-- Other references are no change of a link. -/
theorem links_rereferences {a a' : Ast} (h : a.Rereferences a') : a'.links = a.links :=
  funext fun i => Rereferenced.links (h.nodes i)

/-- In every tree of the parser, whatever its symbols refer to, and with every registry, the
resolution of archetypes ends and does what it is for. -/
theorem resolveArchetypes_resolved {source : Source} {ast : Ast} {error : ErrorData}
    {uninit : NodeId} {fuel : Nat} {p : Parser Lexer} (hast : ast.Blank)
    (hparse : parse fuel (parserStart source ast error uninit) = some (.ok (), p))
    {a : Ast} (hrefs : p.ast.Rereferences a)
    {ac fc cc : UInt16} {memory : TableMemory} {cs : List CreateCall} {vm : TableManager}
    (hvm : CreateRun (tableManagerInit ac fc cc memory) cs vm)
    {e : ErrorData} {fuel' : Nat} (hfuel : p.ast.nodeCount < fuel') :
    ∃ f, p.ast.IsModule f ∧ ∃ result r, resolveArchetypes vm fuel' ⟨a, e⟩ = some (result, r) ∧
      Resolved vm f ⟨a, e⟩ result r := by
  obtain ⟨ts, hmod, hholds, hbody⟩ := module_of_parse hast hparse
  have hvalid : Tokens (resultsOf source) := fun t ht =>
    LawfulTokenSource.valid (reads_lexerInit source) ht
  have hentities := (hbody.entitiesNamed hvalid entitiesNamed_nil).1
  have hshape := ne_module_of_wellShaped (hbody.wellShaped trivial trivial).1
  have hreg := (hvm.isRegistry (isRegistry_init ac fc cc memory)).1
  have hanswers : ∀ u, ∃ handle, Vm.archetypeFind vm u = some handle := by
    intro u
    rcases hreg.archetypeFind_cases u with ⟨i, -, -, -, hfind⟩ | ⟨-, hfind⟩
    · exact ⟨_, hfind⟩
    · exact ⟨_, hfind⟩
  -- what the parser builds can take a handle, and so can it with references
  have hstorable : ∀ i ∈ (Forest.tree 0 (ids ts)).labels, Storable (p.ast.nodes i) := by
    intro i hi
    by_cases hne : i = 0
    · subst hne
      exact storable_of_module hmod.type
    · have hmem := kind_mem_of_holds hholds hi hne
      exact storable_of_kind (hshape _ hmem) (hentities _ hmem)
  have hsize := size_lt_nodeCount hmod
  refine ⟨.tree 0 (ids ts), hmod, resolveArchetypes_run hanswers (hrefs.root.trans hmod.root)
    (links_rereferences hrefs ▸ hmod.links) (fun i hi => hmod.ne_null i (by simp [hi]))
    (fun i hi => ?_) (by omega)⟩
  rcases hrefs.nodes i with heq | ⟨ref, heq⟩
  · rw [heq]
    exact hstorable i hi
  · rw [heq]
    exact (hstorable i hi).setReference ref

/-- The source `let a = singleton(player) let b = insert(boss)`. -/
def bossSource : Source :=
  ⟨"let a = singleton(player) let b = insert(boss)".toList, by decide⟩

/-- In the registry of `twoCreations` there is a player and no boss. -/
theorem resolveArchetypes_bossSource :
    ∃ p vm, parse 20 (startOn bossSource) = some (.ok (), p) ∧
      CreateRun (tableManagerInit 2 4 1 filledMemory) twoCreations vm ∧
      ∃ f, p.ast.IsModule f ∧ ∃ result r,
        resolveArchetypes vm 17 ⟨p.ast, p.error⟩ = some (result, r) ∧
        Resolved vm f ⟨p.ast, p.error⟩ result r := by
  obtain ⟨_, p, hparse⟩ := succeeds_eq_true.mp
    (show succeeds (parse 20) (startOn bossSource) = true by decide +kernel)
  have hcount : p.ast.nodeCount ≤ 16 := (staysWithin (blank_astInit _ (by decide)) _ _ hparse).1
  have hvm : CreateRun (tableManagerInit 2 4 1 filledMemory) twoCreations _ :=
    .ok _ (.ok _ .refl rfl) rfl
  exact ⟨p, _, hparse, hvm, resolveArchetypes_resolved (blank_astInit _ (by decide)) hparse
    ⟨rfl, fun _ => Or.inl rfl⟩ hvm (Nat.lt_succ_of_le hcount)⟩

end Nucleus.Proofs
