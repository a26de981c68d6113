import Nucleus.Proofs.Acceptance
import Nucleus.Proofs.Archetypes
import Nucleus.Proofs.Initialisers
import Nucleus.Spec.Static

/-!
# `Nucleus.Proofs.Static`: `nulang_compile` decides the static semantics

The resolver keeps its declarations on a stack of node ids, and goes over the tree through the
links. `WellScoped` says the same with names and abstract syntax: the checks of the resolver on a
tree are those of `WellScoped` on its syntax (`gatesOf_iff_wellScoped`).

`compile_iff` puts the three passes together. A compiler of any history compiles a source exactly
when the grammar derives it, its syntax fits, and the module is statically correct with the
archetypes of the registry. The tree that it leaves is the syntax of the source, with the handles of
its archetypes.
-/

set_option autoImplicit false

namespace Nucleus.Spec

open Nucleus.Lib
open Nucleus.Lang

/-! ### The names that a derivation keeps -/

/-- The names that a node keeps. -/
def Kind.names : Kind → List SourceString
  | .fundecl name ty _ | .argdecl name ty | .vardecl name ty => name :: ty.archetypeName.toList
  | .symref name | .member name | .insert name | .singleton name => [name]
  | _ => []

/-- All names of the syntax are in `S`. -/
def NamesIn (S : SourceString → Prop) (s : Syn) : Prop :=
  ∀ k ∈ s.labels, ∀ name ∈ k.names, S name

section
variable {S : SourceString → Prop} {rs rs' : List LexResult}

@[simp] theorem namesIn_nil : NamesIn S .nil := fun _ hk => absurd hk List.not_mem_nil

@[simp] theorem namesIn_tree {k : Kind} {cs : Syn} :
    NamesIn S (.tree k cs) ↔ (∀ name ∈ k.names, S name) ∧ NamesIn S cs := by
  simp [NamesIn]

@[simp] theorem namesIn_leaf {k : Kind} : NamesIn S (.leaf k) ↔ ∀ name ∈ k.names, S name := by
  simp [Forest.leaf]

@[simp] theorem namesIn_append {s t : Syn} :
    NamesIn S (s ++ t) ↔ NamesIn S s ∧ NamesIn S t := by
  simp only [NamesIn, Forest.labels_append, List.forall_mem_append]

/-- The archetype that a type names is an identifier of the source. -/
theorem DerivesType.namesIn {ty : Vartype} (h : DerivesType rs ty rs') (hrs : Identifies S rs) :
    (∀ name ∈ ty.archetypeName, S name) ∧ Identifies S rs' := by
  cases h with
  | primitive _ _ => simp_all
  | archetype _ ht => simp_all

/-- The same for a type that may be absent. -/
theorem DerivesTypeOpt.namesIn {ty : Vartype} (h : DerivesTypeOpt rs ty rs')
    (hrs : Identifies S rs) : (∀ name ∈ ty.archetypeName, S name) ∧ Identifies S rs' := by
  cases h with
  | absent _ _ => exact ⟨by simp [noType], hrs⟩
  | present h => exact h.namesIn hrs

/-- A member access keeps the names of its owner and the name of the member. -/
theorem namesIn_memberOf {o o' : Syn} {name : SourceString} (h : memberOf o name = some o')
    (ho : NamesIn S o) (hname : S name) : NamesIn S o' := by
  unfold memberOf at h
  split at h
  · cases h
  · split at h
    · cases h
      exact namesIn_tree.mpr ⟨by simpa [Kind.names] using hname, ho⟩
    · cases h
      exact namesIn_tree.mpr ⟨by simpa [Kind.names] using hname, ho⟩
    · obtain ⟨f, -, rfl⟩ := Option.map_eq_some_iff.mp h
      exact namesIn_tree.mpr ⟨by simp [Kind.names], fun k hk => ho k (by simp [hk])⟩
    · cases h

/-- All names in the syntax of a derivation are identifiers that it reads. -/
theorem Derives.namesIn {c : Cat} {s : Syn} (h : Derives c rs s rs') (hrs : Identifies S rs)
    (hbefore : NamesIn S c.before) : NamesIn S s ∧ Identifies S rs' := by
  induction h with
  | chainDot _ hm hmember _ ih =>
      simp only [identifies_cons] at hrs
      exact ih hrs.2.2 (namesIn_memberOf hmember hbefore (hrs.2.1 hm))
  | insert _ _ hn =>
      simp only [identifies_cons] at hrs
      exact ⟨by simpa [Kind.names] using hrs.2.2.1 hn, hrs.2.2.2.tail⟩
  | singleton _ _ hn =>
      simp only [identifies_cons] at hrs
      exact ⟨by simpa [Kind.names] using hrs.2.2.1 hn, hrs.2.2.2.tail⟩
  -- the declarations keep the name of their type as well
  | paramsLast hi hty _ _ =>
      rw [identifies_cons] at hrs
      obtain ⟨hnames, hrs'⟩ := hty.namesIn hrs.2
      exact ⟨by simpa [Kind.names] using ⟨hrs.1 hi, hnames⟩, hrs'⟩
  | paramsComma hi hty _ _ ih =>
      rw [identifies_cons] at hrs
      obtain ⟨hnames, hrs₁⟩ := hty.namesIn hrs.2
      obtain ⟨hps, hrs'⟩ := ih (identifies_cons.mp hrs₁).2 namesIn_nil
      exact ⟨namesIn_append.mpr ⟨by simpa [Kind.names] using ⟨hrs.1 hi, hnames⟩, hps⟩, hrs'⟩
  | vardecl _ hi hty _ _ ih =>
      simp only [identifies_cons] at hrs
      obtain ⟨hnames, hrs₁⟩ := hty.namesIn hrs.2.2
      obtain ⟨he, hrs'⟩ := ih (identifies_cons.mp hrs₁).2 namesIn_nil
      exact ⟨namesIn_tree.mpr ⟨by simpa [Kind.names] using ⟨hrs.2.1 hi, hnames⟩, he⟩, hrs'⟩
  | fundecl _ hi _ _ _ hty _ _ ihps ihb =>
      simp only [identifies_cons] at hrs
      obtain ⟨hps, hr⟩ := ihps hrs.2.2.2 namesIn_nil
      obtain ⟨hnames, hrs₂⟩ := hty.namesIn (identifies_cons.mp hr).2
      obtain ⟨hb, hrs'⟩ := ihb hrs₂ namesIn_nil
      refine ⟨namesIn_tree.mpr ⟨by simpa [Kind.names] using ⟨hrs.2.1 hi, hnames⟩, ?_⟩,
        (identifies_cons.mp hrs').2⟩
      exact namesIn_append.mpr ⟨hps, namesIn_tree.mpr ⟨by simp [Kind.names], hb⟩⟩
  | _ => simp_all [Cat.before, Kind.names]

end

/-- The archetype of a node is among its names. -/
theorem Kind.archetypeName_mem_names {k : Kind} {name : SourceString}
    (h : k.archetypeName = some name) : name ∈ k.names := by
  unfold Kind.archetypeName at h
  split at h <;> simp_all [Kind.names]

/-- The compiler looks a slice up with the hash of its characters. -/
theorem uidn_eq_nameUid {name : SourceString} (h : name.IsSlice) :
    Vm.uidn name.p name.n = nameUid name.text := by
  unfold Vm.uidn nameUid SourceString.text
  congr 1
  refine List.ext_getElem (by simp [h.le]) fun i hi _ => ?_
  rw [List.length_map, List.length_range] at hi
  have hlt : i < name.p.length := Nat.lt_of_lt_of_le hi h.le
  simp [Vm.charAt, List.getElem?_eq_getElem hlt]

end Nucleus.Spec

namespace Nucleus.Lang

open Nucleus.Lib
open Nucleus.Spec

/-- The name of a node as a text. -/
def Ast.nameAt (a : Ast) (i : NodeId) : Name := (a.nodes i).value.name.text

/-- The kind of a node. -/
def Ast.kindAt (a : Ast) (i : NodeId) : Kind := (a.nodes i).kind

end Nucleus.Lang

namespace Nucleus.Proofs

open Nucleus.Lib
open Nucleus.Lib.Prog
open Nucleus.Lang
open Nucleus.Spec
open Nucleus.Vm (TableManager archetypeFind uidn TableMemory tableManagerInit identUid)

/-! ### One node -/

section
variable {n : Node} (h : n.kind ≠ .module)
include h

/-- The name that a node declares, by its type. -/
theorem declared_kind : n.kind.declared =
    if n.type = .astVardecl ∨ n.type = .astArgdecl then some n.value.name.text else none := by
  unfold Node.kind at h ⊢
  split at h
  all_goals simp_all [Kind.declared, NodeValue.name]

/-- The name that a node uses is that of a symbol reference. -/
theorem used_kind :
    n.kind.used = if n.type = .astSymref then some n.value.name.text else none := by
  unfold Node.kind at h ⊢
  split at h
  all_goals simp_all [Kind.used, NodeValue.name]

/-- The name that a node defines ahead of the walk is that of a function. -/
theorem functionName_kind :
    n.kind.functionName = if n.type = .astFundecl then some n.value.name.text else none := by
  unfold Node.kind at h ⊢
  split at h
  all_goals simp_all [Kind.functionName, NodeValue.name]

/-- The scopes of the resolver are the bodies and the functions. -/
theorem isScope_kind :
    n.kind.isScope = true ↔ n.type = .astCompound ∨ n.type = .astFundecl := by
  unfold Node.kind at h ⊢
  split at h
  all_goals simp_all [Kind.isScope]

/-- A node keeps the name of the archetype of its type. -/
theorem archetypeName_kind : n.kind.archetypeName = n.archetypeName := by
  unfold Node.kind Node.archetypeName at *
  split at h
  all_goals simp_all [Kind.archetypeName, NodeValue.vartype, NodeValue.name]

end

/-! ### The stack of the resolver, by names -/

section
variable {a : Ast} {i : NodeId} {env : List NodeId}

/-- The name that a node of the tree declares. -/
theorem declared_kindAt (h : a.kindAt i ≠ .module) :
    (a.kindAt i).declared = if a.IsLocal i then some (a.nameAt i) else none :=
  declared_kind h

/-- The name that a node of the tree uses. -/
theorem used_kindAt (h : a.kindAt i ≠ .module) :
    (a.kindAt i).used = if (a.nodes i).type = .astSymref then some (a.nameAt i) else none :=
  used_kind h

/-- The stack of declarations, with names in place of ids. -/
theorem map_declare (h : a.kindAt i ≠ .module) :
    (Forest.declare a.IsLocal env i).map a.nameAt =
      (a.kindAt i).declare (env.map a.nameAt) := by
  unfold Forest.declare Kind.declare
  rw [declared_kindAt h]
  by_cases hlocal : a.IsLocal i
  · rw [if_pos hlocal, if_pos hlocal]
    rfl
  · rw [if_neg hlocal, if_neg hlocal]

/-- The scopes of the tree, by the kinds of its nodes. -/
theorem isScope_iff (h : a.kindAt i ≠ .module) (hroot : i ≠ a.root) :
    a.IsScope i ↔ (a.kindAt i).isScope = true := by
  rw [show (a.kindAt i).isScope = true ↔ _ from isScope_kind h]
  simp [Ast.IsScope, hroot]

/-- The gate of the resolver at a node is the condition of the static semantics. -/
theorem gateAt_iff_allowed (h : a.kindAt i ≠ .module) :
    (gateAt a (i, env)).passes ∧ (gateAt a (i, env)).room ↔
      (a.kindAt i).Allowed maxSymbols (env.map a.nameAt) := by
  have hdeclared := declared_kindAt h
  have hused := used_kindAt h
  constructor
  · -- the ids on the stack have exactly the names of the environment
    rintro ⟨⟨hdeclares, hrefers⟩, hroom⟩
    constructor
    · intro name hmem
      rw [hdeclared, Option.mem_def, Option.ite_none_right_eq_some] at hmem
      obtain ⟨hlocal, hname⟩ := hmem
      cases hname
      refine ⟨fun hmem => ?_, by rw [List.length_map]; exact hroom hlocal⟩
      obtain ⟨d, hd, hsame⟩ := List.mem_map.mp hmem
      exact hdeclares hlocal d hd hsame
    · intro name hmem
      rw [hused, Option.mem_def, Option.ite_none_right_eq_some] at hmem
      obtain ⟨htype, hname⟩ := hmem
      cases hname
      obtain ⟨d, hd, hsame⟩ := hrefers htype
      exact List.mem_map.mpr ⟨d, hd, hsame⟩
  · rintro ⟨hdeclares, huses⟩
    refine ⟨⟨fun hlocal d hd hsame => ?_, fun htype => ?_⟩, fun hlocal => ?_⟩
    · refine (hdeclares (a.nameAt i) ?_).1 (List.mem_map.mpr ⟨d, hd, hsame⟩)
      rw [hdeclared]
      exact if_pos hlocal
    · have hmem := huses (a.nameAt i) (by rw [hused]; exact if_pos htype)
      obtain ⟨d, hd, hsame⟩ := List.mem_map.mp hmem
      exact ⟨d, hd, hsame⟩
    · have hlt := (hdeclares (a.nameAt i) (by rw [hdeclared]; exact if_pos hlocal)).2
      rwa [List.length_map] at hlt

end

/-- A forest of nodes that are neither the root nor misread. -/
def Ast.Sound (a : Ast) (f : Forest Nat) : Prop :=
  ∀ i ∈ f.labels, a.kindAt i ≠ .module ∧ i ≠ a.root

section
variable {a : Ast} {i : NodeId} {env : List NodeId} {f cs next : Forest Nat}

/-- A tree is sound when its nodes are, one by one. -/
theorem sound_cons : Ast.Sound a (.cons i cs next) ↔
    (a.kindAt i ≠ .module ∧ i ≠ a.root) ∧ Ast.Sound a cs ∧ Ast.Sound a next := by
  unfold Ast.Sound
  rw [Forest.labels_cons, List.forall_mem_cons, List.forall_mem_append]

/-- The stack behind a forest. -/
theorem map_envAfter (h : Ast.Sound a f) :
    (f.envAfter a.IsLocal a.IsScope env).map a.nameAt =
      namesBehind (env.map a.nameAt) (f.map a.kindAt) := by
  induction f generalizing env with
  | nil => rfl
  | cons i cs next ihc ihn =>
      obtain ⟨⟨hkind, hroot⟩, hcs, hnext⟩ := sound_cons.mp h
      rw [Forest.envAfter, ihn hnext, Forest.map_cons, namesBehind]
      congr 1
      by_cases hscope : a.IsScope i
      · rw [if_pos hscope, if_pos ((isScope_iff hkind hroot).mp hscope)]
      · rw [if_neg hscope, if_neg fun hk => hscope ((isScope_iff hkind hroot).mpr hk), ihc hcs,
          map_declare hkind]

/-- The gates of the resolver on a forest are the conditions of the static semantics on its
syntax. -/
theorem gatesOf_iff_wellScoped (h : Ast.Sound a f) :
    (∀ g ∈ gatesOf a f env, g.passes ∧ g.room) ↔
      WellScoped maxSymbols (env.map a.nameAt) (f.map a.kindAt) := by
  induction f generalizing env with
  | nil => exact iff_of_true (fun g hg => absurd hg List.not_mem_nil) trivial
  | cons i cs next ihc ihn =>
      obtain ⟨⟨hkind, hroot⟩, hcs, hnext⟩ := sound_cons.mp h
      have hbehind : (if a.IsScope i then env else
            cs.envAfter a.IsLocal a.IsScope (Forest.declare a.IsLocal env i)).map a.nameAt =
          if (a.kindAt i).isScope then env.map a.nameAt else
            namesBehind ((a.kindAt i).declare (env.map a.nameAt)) (cs.map a.kindAt) := by
        by_cases hscope : a.IsScope i
        · rw [if_pos hscope, if_pos ((isScope_iff hkind hroot).mp hscope)]
        · rw [if_neg hscope, if_neg fun hk => hscope ((isScope_iff hkind hroot).mpr hk),
            map_envAfter hcs, map_declare hkind]
      rw [gatesOf_cons, List.forall_mem_append, List.forall_mem_append, List.forall_mem_singleton,
        gateAt_iff_allowed hkind, ihc hcs, ihn hnext, hbehind, map_declare hkind, Forest.map_cons,
        WellScoped, and_assoc]

/-! ### Functions -/

/-- The functions at the top level, with names in place of ids. -/
theorem map_functions (h : Ast.Sound a f) :
    (functions a f).map a.nameAt = functionNames (f.map a.kindAt) := by
  induction f with
  | nil => rfl
  | cons i cs next _ ihn =>
      obtain ⟨⟨hkind, -⟩, -, hnext⟩ := sound_cons.mp h
      have hname : (a.kindAt i).functionName =
          if (a.nodes i).type = .astFundecl then some (a.nameAt i) else none :=
        functionName_kind hkind
      have hrest := ihn hnext
      unfold functions functionNames at hrest ⊢
      rw [Forest.map_cons, Forest.roots_cons, Forest.roots_cons, List.filter_cons,
        List.filterMap_cons, hname, ← hrest]
      by_cases htype : (a.nodes i).type = .astFundecl
      · simp [htype]
      · simp [htype]

/-- The gates of the functions: their names are different, and not too many. -/
theorem functionGates_iff {fs : List NodeId}
    (henv : env.Pairwise fun d d' => ¬ a.SameName d' d) (hlen : env.length ≤ maxSymbols) :
    (∀ g ∈ functionGates a env fs, g.passes ∧ g.room) ↔
      (fs.reverse ++ env).Pairwise (fun d d' => ¬ a.SameName d' d) ∧
        fs.length + env.length ≤ maxSymbols := by
  have hpass : (∀ g ∈ functionGates a env fs, g.passes) ↔
      (fs.reverse ++ env).Pairwise fun d d' => ¬ a.SameName d' d := functionGates_pass_iff henv
  constructor
  · intro hall
    refine ⟨hpass.mp fun g hg => (hall g hg).1, ?_⟩
    clear hpass henv
    -- the last function finds all the others in front of it
    induction fs generalizing env with
    | nil => simpa using hlen
    | cons i fs ih =>
        rw [functionGates, List.forall_mem_cons] at hall
        have hroom : (i :: env).length ≤ maxSymbols := hall.1.2
        have hrest := ih hroom hall.2
        rw [List.length_cons] at hrest ⊢
        omega
  · rintro ⟨hdistinct, hroom⟩ g hg
    exact ⟨hpass.mpr hdistinct g hg, functionGates_room hroom g hg⟩

/-- Declarations differ in pairs exactly when no name is declared twice. -/
theorem pairwise_names_iff {l : List NodeId} :
    l.reverse.Pairwise (fun d d' => ¬ a.SameName d' d) ↔ (l.map a.nameAt).Nodup := by
  rw [List.pairwise_reverse, List.Nodup, List.pairwise_map]
  rfl

/-- The gates of the whole pass are the static semantics of the module, archetypes apart. -/
theorem gates_iff (h : Ast.Sound a cs) :
    (∀ g ∈ functionGates a [] (functions a cs) ++ gatesOf a cs (functions a cs).reverse,
        g.passes ∧ g.room) ↔
      (functionNames (cs.map a.kindAt)).Nodup ∧
        (functionNames (cs.map a.kindAt)).length ≤ maxSymbols ∧
        WellScoped maxSymbols (functionNames (cs.map a.kindAt)).reverse (cs.map a.kindAt) := by
  rw [List.forall_mem_append, functionGates_iff List.Pairwise.nil (Nat.zero_le _),
    gatesOf_iff_wellScoped h, List.append_nil, pairwise_names_iff, List.map_reverse,
    map_functions h, List.length_nil, Nat.add_zero, ← map_functions h, List.length_map, and_assoc]

end

/-! ### Archetypes -/

section
variable {n m : Node} {find : UInt32 → Archetype}

/-- Two types are equal when their parts are. -/
theorem vartype_ext {t u : Vartype} (hprimitive : t.primitive = u.primitive)
    (harchetype : t.archetype = u.archetype) (hname : t.archetypeName = u.archetypeName) :
    t = u := by
  cases t
  cases u
  simp_all

/-- A node is what it is without its archetype, and its archetype. -/
theorem node_of_eraseArchetype (herased : m.eraseArchetype = n.eraseArchetype)
    (harchetype : m.value.archetype = n.value.archetype) : m = n := by
  obtain ⟨type, value⟩ := n
  obtain ⟨type', value'⟩ := m
  cases value <;> cases value' <;> simp_all [Node.eraseArchetype, NodeValue.archetype]
  -- the declarations, which have their archetype in the type
  all_goals exact vartype_ext (by simp_all) harchetype (by simp_all)

/-- A node without an archetype name stays as it is. -/
theorem resolve_of_none {k : Kind} (h : k.archetypeName = none) : k.resolve find = k := by
  have htype : ∀ ty : Vartype, (if ty.primitive = .entity then ty.archetypeName else none) = none →
      resolveType find ty = ty := by
    intro ty h
    unfold resolveType
    split
    · rename_i hentity
      rw [if_pos hentity] at h
      rw [h]
    · rfl
  cases k
  all_goals simp_all [Kind.archetypeName, Kind.resolve]

/-- Only the archetype name of a node decides what is stored in it. -/
theorem resolve_congr {find' : UInt32 → Archetype} {k : Kind}
    (h : ∀ name ∈ k.archetypeName, find (nameUid name.text) = find' (nameUid name.text)) :
    k.resolve find = k.resolve find' := by
  have htype : ∀ ty : Vartype, (∀ name ∈ if ty.primitive = .entity then ty.archetypeName else none,
      find (nameUid name.text) = find' (nameUid name.text)) →
      resolveType find ty = resolveType find' ty := by
    intro ty h
    unfold resolveType
    by_cases hentity : ty.primitive = .entity
    · rw [if_pos hentity] at h
      rw [if_pos hentity, if_pos hentity]
      cases hname : ty.archetypeName with
      | none => rfl
      | some name => simp only [h name hname]
    · rw [if_neg hentity, if_neg hentity]
  -- only declarations have a type that is resolved
  cases k
  case fundecl name ty exported => exact congrArg (Kind.fundecl name · exported) (htype ty h)
  case argdecl name ty => exact congrArg (Kind.argdecl name) (htype ty h)
  case vardecl name ty => exact congrArg (Kind.vardecl name) (htype ty h)
  all_goals rfl

/-- The resolution of archetypes keeps their names. -/
theorem archetypeName_resolve (k : Kind) : (k.resolve find).archetypeName = k.archetypeName := by
  have htype : ∀ ty : Vartype, (resolveType find ty).primitive = ty.primitive ∧
      (resolveType find ty).archetypeName = ty.archetypeName := by
    intro ty
    unfold resolveType
    split
    · split
      · exact ⟨rfl, rfl⟩
      · exact ⟨rfl, rfl⟩
    · exact ⟨rfl, rfl⟩
  cases k
  all_goals simp [Kind.resolve, Kind.archetypeName, htype]

/-- A node with its archetype stored has its kind resolved. -/
theorem kind_setArchetype (hkind : n.kind ≠ .module) {name : SourceString}
    (hname : n.archetypeName = some name) :
    (setArchetype (find (nameUid name.text)) n).kind = n.kind.resolve find := by
  unfold Node.kind at hkind ⊢
  unfold Node.archetypeName at hname
  split at hkind
  all_goals simp_all [setArchetype, Kind.resolve, resolveType, NodeValue.vartype, NodeValue.name]

end

/-! ### The tree of a source -/

/-- The tree `cs` of an arena, with what the passes rely on at its nodes. -/
structure Readied (a : Ast) (cs : Forest Nat) : Prop where
  module : a.IsModule (.tree 0 cs)
  sound : Ast.Sound a cs
  entities : ∀ i ∈ cs.labels, (a.kindAt i).EntityNamed
  slices : ∀ i ∈ cs.labels, ∀ name ∈ (a.kindAt i).names, name.IsSlice

section
variable {a b : Ast} {cs : Forest Nat}

/-- The syntax of an arena with the links of a module. -/
theorem syntaxOf_of_links (hmod : a.IsModule (.tree 0 cs)) (hlinks : b.links = a.links)
    (hroot : b.root = a.root) (hcount : b.nodeCount = a.nodeCount) :
    b.syntaxOf = cs.map b.kindAt := by
  obtain ⟨hnode, hholds⟩ := Links.holds_tree.mp hmod.links
  have hfirst : (b.nodes b.root).firstChild = cs.firstId nodeNull := by
    rw [hroot, hmod.root]
    exact (congrArg Links.firstChild (congrFun hlinks 0)).trans (congrArg Links.firstChild hnode)
  have hsize := size_lt_nodeCount hmod
  unfold Ast.syntaxOf Ast.syntaxAt
  rw [hfirst, Ast.forestAt_eq (hlinks ▸ hholds) (fun hmem => hmod.ne_null _ (by simp [hmem]) rfl)
    (by omega)]
  rfl

/-- The abstract syntax of a readied tree. -/
theorem Readied.syntaxOf (h : Readied a cs) : a.syntaxOf = cs.map a.kindAt :=
  syntaxOf_of_links h.module rfl rfl rfl

end

/-- A parse that succeeds leaves a tree that the passes can rely on. -/
theorem readied_of_parse {source : Source} {ast : Ast} {error : ErrorData} {uninit : NodeId}
    {fuel : Nat} {p : Parser Lexer} (hast : ast.Blank)
    (h : parse fuel (parserStart source ast error uninit) = some (.ok (), p)) :
    ∃ cs, Readied p.ast cs := by
  obtain ⟨ts, hmod, hholds, hbody⟩ := module_of_parse hast h
  have hvalid : Tokens (resultsOf source) := fun t ht =>
    LawfulTokenSource.valid (reads_lexerInit source) ht
  have hentities := (hbody.entitiesNamed hvalid entitiesNamed_nil).1
  have hshape := ne_module_of_wellShaped (hbody.wellShaped trivial trivial).1
  have hnames := (hbody.namesIn (S := SourceString.IsSlice)
    (fun t ht htype => isSlice_of_mem_resultsOf ht htype) namesIn_nil).1
  obtain ⟨⟨h0, -⟩, -⟩ := Forest.nodup_labels_cons.mp hmod.nodup
  have hmem : ∀ i ∈ (ids ts).labels, p.ast.kindAt i ∈ (syn ts).labels := fun i hi =>
    kind_mem_of_holds hholds (by simp [hi]) fun heq => h0 (heq ▸ hi)
  refine ⟨ids ts, hmod, fun i hi => ⟨hshape _ (hmem i hi), fun heq => h0 ?_⟩,
    fun i hi => hentities _ (hmem i hi), fun i hi => hnames _ (hmem i hi)⟩
  rw [hmod.root] at heq
  exact heq ▸ hi

/-! ### The registry -/

/-- An archetype was created under a name that is stored with the hash `u`. -/
def Registered (created : List CreateCall) (u : UInt32) : Prop :=
  ∃ c ∈ created, storedUid c.name = u

/-- The handle that the registry has for a hash. -/
def handleOf (vm : TableManager) (u : UInt32) : Archetype :=
  (archetypeFind vm u).getD archetypeNull

section
variable {vm : TableManager} {created : List CreateCall} (hvm : IsRegistry vm created)
include hvm

/-- In a registry the search for an identifier returns its handle. -/
theorem IsRegistry.archetypeFind_eq (u : UInt32) : archetypeFind vm u = some (handleOf vm u) := by
  unfold handleOf
  rcases hvm.archetypeFind_cases u with ⟨i, -, -, -, hfind⟩ | ⟨-, hfind⟩
  · rw [hfind, Option.getD_some]
  · rw [hfind, Option.getD_some]

/-- The registry has a handle exactly for the hashes that it stores. -/
theorem IsRegistry.handleOf_ne_iff (u : UInt32) :
    handleOf vm u ≠ archetypeNull ↔ Registered created u := by
  have hcap : created.length ≤ vm.archetypeCapacity.toNat := by
    rw [← hvm.count]
    exact UInt16.le_iff_toNat_le.mp hvm.archetypes_le
  have hlt := vm.archetypeCapacity.toNat_lt
  unfold handleOf
  rcases hvm.archetypeFind_cases u with ⟨i, c, hget, hu, hfind⟩ | ⟨hno, hfind⟩
  · have hi : i < created.length := (List.getElem?_eq_some_iff.mp hget).1
    rw [hfind, Option.getD_some]
    refine iff_of_true (fun hnull => ?_) ⟨c, List.mem_of_getElem? hget, hu⟩
    have hval : (UInt16.ofNat (i + 1)).toNat = i + 1 := 
      UInt16.toNat_ofNat_of_lt' (show i + 1 < 65536 by omega)
    rw [hnull] at hval
    cases hval
  · rw [hfind, Option.getD_some]
    refine iff_of_false (fun hne => hne rfl) ?_
    rintro ⟨c, hc, hu⟩
    exact hno c hc hu

end

/-! ### The two passes -/

section
variable {a : Ast} {cs : Forest Nat} {env : List NodeId} {r : SymbolResolver} {vm : TableManager}
  {created : List CreateCall} {e : ErrorData} {fuel : Nat} {i : NodeId}

/-- What the first pass leaves is a tree that the second one can go over. -/
theorem Readied.storable (h : Readied a cs) (hr : Resolves a env r) :
    ∀ i ∈ (Forest.tree 0 cs).labels, Storable (r.ast.nodes i) := by
  intro i hi
  have hstorable : Storable (a.nodes i) := by
    rw [Forest.labels_tree, List.mem_cons] at hi
    rcases hi with rfl | hi
    · exact storable_of_module h.module.type
    · exact storable_of_kind (h.sound i hi).1 (h.entities i hi)
  rcases hr.nodes i with heq | ⟨ref, heq⟩
  · rw [heq]
    exact hstorable
  · rw [heq]
    exact hstorable.setReference ref

/-- Another reference is no change of a kind. -/
theorem kind_setReference (ref : NodeId) (n : Node) : (setReference ref n).kind = n.kind := by
  obtain ⟨type, value⟩ := n
  cases value
  case symref => cases type <;> rfl
  all_goals rfl

/-- The resolution of symbols keeps the kinds of the nodes. -/
theorem Resolves.kindAt (hr : Resolves a env r) (i : NodeId) : r.ast.kindAt i = a.kindAt i := by
  unfold Ast.kindAt
  rcases hr.nodes i with heq | ⟨ref, heq⟩
  · rw [heq]
  · rw [heq, kind_setReference]

/-- A node finds its archetype exactly when the registry has one for the name in its syntax. -/
theorem findsArchetype_iff (hvm : IsRegistry vm created) (hkind : a.kindAt i ≠ .module)
    (hslices : ∀ name ∈ (a.kindAt i).names, name.IsSlice) :
    (a.nodes i).FindsArchetype vm ↔
      ∀ name ∈ (a.kindAt i).archetypeName, Registered created (nameUid name.text) := by
  have hname : (a.kindAt i).archetypeName = (a.nodes i).archetypeName := archetypeName_kind hkind
  unfold Node.FindsArchetype
  rw [← hname]
  refine forall_congr' fun name => ⟨fun h hmem => ?_, fun h hmem => ?_⟩
  all_goals
    have hslice := hslices name (Kind.archetypeName_mem_names hmem)
  · have hne := h hmem
    rw [uidn_eq_nameUid hslice, hvm.archetypeFind_eq, Ne, Option.some.injEq] at hne
    exact (hvm.handleOf_ne_iff _).mp hne
  · rw [uidn_eq_nameUid hslice, hvm.archetypeFind_eq, Ne, Option.some.injEq]
    exact (hvm.handleOf_ne_iff _).mpr (h hmem)

/-- The second pass, on what the first one leaves: it succeeds exactly when all archetypes are
known, and then every node has its archetype. -/
theorem resolveArchetypes_of_resolves (h : Readied a cs) (hvm : IsRegistry vm created)
    (hr : Resolves a env r) (hfuel : cs.size + 1 < fuel) :
    ∃ result s, resolveArchetypes vm fuel ⟨r.ast, e⟩ = some (result, s) ∧
      (result = .ok () ↔ ∀ k ∈ (cs.map a.kindAt).labels, ∀ name ∈ k.archetypeName,
        Registered created (nameUid name.text)) ∧
      (result = .ok () → s.ast.root = r.ast.root ∧ s.ast.nodeCount = r.ast.nodeCount ∧
        s.ast.links = a.links ∧
        ∀ i ∈ cs.labels, s.ast.kindAt i = (a.kindAt i).resolve (handleOf vm)) := by
  have hlinks : r.ast.links = a.links := funext hr.links
  have hkinds : r.ast.kindAt = a.kindAt := funext hr.kindAt
  obtain ⟨result, s, hrun, hresolved⟩ := resolveArchetypes_run (e := e) (a := r.ast)
    (fun u => ⟨_, hvm.archetypeFind_eq u⟩) (hr.root.trans h.module.root)
    (hlinks ▸ h.module.links) (fun i hi => h.module.ne_null i (by simp [hi])) (h.storable hr) hfuel
  -- the root has no archetype
  have hzero : (r.ast.nodes 0).FindsArchetype vm := by
    intro name hname
    have htype : (r.ast.nodes 0).type = .astModule := (hr.type 0).trans h.module.type
    simp [Node.archetypeName, htype] at hname
  have hfinds : ∀ i ∈ cs.labels, (r.ast.nodes i).FindsArchetype vm ↔
      ∀ name ∈ (a.kindAt i).archetypeName, Registered created (nameUid name.text) := by
    intro i hi
    rw [← hkinds]
    exact findsArchetype_iff hvm (hkinds ▸ (h.sound i hi).1) (hkinds ▸ h.slices i hi)
  refine ⟨result, s, hrun, ?_, fun hok => ?_⟩
  · rw [hresolved.ok_iff, Forest.labels_tree, List.forall_mem_cons, Forest.labels_map,
      List.forall_mem_map]
    exact (and_iff_right hzero).trans (forall₂_congr hfinds)
  · subst hok
    have hroot := congrArg Ast.root hresolved.arena
    have hcount := congrArg Ast.nodeCount hresolved.arena
    have herased : mapNodes Node.eraseArchetype s.ast = mapNodes Node.eraseArchetype r.ast :=
      keeps_resolveArchetypes fuel _ _ _ hrun
    refine ⟨hroot, hcount, (links_eraseArchetype herased).trans hlinks, fun i hi => ?_⟩
    have hkind : (r.ast.nodes i).kind ≠ .module := (hr.kindAt i).trans_ne (h.sound i hi).1
    have hmem : i ∈ (Forest.tree 0 cs).labels := by simp [hi]
    rw [← hr.kindAt i]
    cases hname : (r.ast.nodes i).archetypeName with
    | none =>
        unfold Ast.kindAt
        rw [hresolved.unnamed i hname, resolve_of_none ((archetypeName_kind hkind).trans hname)]
    | some name =>
        obtain ⟨handle, hfind, -, hstored⟩ := hresolved.stores rfl i hmem name hname
        have hslice := h.slices i hi name (Kind.archetypeName_mem_names
          (by rw [← hr.kindAt i]; exact (archetypeName_kind hkind).trans hname))
        rw [uidn_eq_nameUid hslice, hvm.archetypeFind_eq, Option.some.injEq] at hfind
        subst hfind
        -- the node is the old one with this archetype, for the rest of it did not change
        have hnode : s.ast.nodes i =
            setArchetype (handleOf vm (nameUid name.text)) (r.ast.nodes i) := by
          refine node_of_eraseArchetype ?_ (hstored.trans ?_)
          · rw [setArchetype_eraseArchetype]
            exact hresolved.same i
          · exact ((h.storable hr i hmem).stores (by simp [hname]) _).symm
        unfold Ast.kindAt
        rw [hnode]
        exact kind_setArchetype hkind hname

/-- The first pass succeeds exactly when the names of the module are correct. -/
theorem resolveSymbols_ok_iff (h : Readied a cs) (hfuel : cs.size + 1 < fuel) :
    (∃ r, resolveSymbols fuel ⟨a, [], e⟩ = some (.ok (), r) ∧ ∃ env, Resolves a env r) ↔
      (functionNames (cs.map a.kindAt)).Nodup ∧
        (functionNames (cs.map a.kindAt)).length ≤ maxSymbols ∧
        WellScoped maxSymbols (functionNames (cs.map a.kindAt)).reverse (cs.map a.kindAt) := by
  rw [← gates_iff h.sound, ← (resolveSymbols_gated (e := e) h.module hfuel).ok_iff]
  constructor
  · rintro ⟨r, hrun, -⟩
    exact ⟨(), r, hrun, ((resolveSymbols_gated h.module hfuel).of_ok hrun).2⟩
  · rintro ⟨_, r, hrun, hwalked⟩
    exact ⟨r, hrun, _, hwalked.resolves⟩

/-- Both passes succeed exactly on a correct module, and store the archetypes in it. -/
theorem passes_iff (h : Readied a cs) (hvm : IsRegistry vm created) (hfuel : cs.size + 1 < fuel)
    {s : Syn} :
    (∃ r q, resolveSymbols fuel ⟨a, [], e⟩ = some (.ok (), r) ∧
      resolveArchetypes vm fuel ⟨r.ast, r.error⟩ = some (.ok (), q) ∧ q.ast.syntaxOf = s) ↔
    StaticallyCorrect maxSymbols (Registered created) a.syntaxOf ∧
      s = a.syntaxOf.map (Kind.resolve (handleOf vm)) := by
  have hsymbols := resolveSymbols_ok_iff (e := e) h hfuel
  -- what the second pass leaves behind the first one
  have htree : ∀ {r : SymbolResolver} {q : ArchetypeResolver},
      resolveSymbols fuel ⟨a, [], e⟩ = some (.ok (), r) → r.ast.root = a.root →
      (q.ast.root = r.ast.root ∧ q.ast.nodeCount = r.ast.nodeCount ∧ q.ast.links = a.links ∧
        ∀ i ∈ cs.labels, q.ast.kindAt i = (a.kindAt i).resolve (handleOf vm)) →
      q.ast.syntaxOf = a.syntaxOf.map (Kind.resolve (handleOf vm)) := by
    rintro r q hrun hroot ⟨hqroot, hqcount, hlinks, hkinds⟩
    have hcount : r.ast.nodeCount = a.nodeCount :=
      nodeCount_of_mapNodes (keeps_resolveSymbols fuel _ _ _ hrun)
    rw [syntaxOf_of_links h.module hlinks (hqroot.trans hroot) (hqcount.trans hcount), h.syntaxOf,
      Forest.map_map]
    exact Forest.map_congr hkinds
  rw [h.syntaxOf] at *
  constructor
  · rintro ⟨r, q, hrun, hrun', rfl⟩
    have hstatic := hsymbols.mp ⟨r, hrun, _,
      ((resolveSymbols_gated h.module hfuel).of_ok hrun).2.resolves⟩
    obtain ⟨hnodup, hroom, hscoped⟩ := hstatic
    have hr := ((resolveSymbols_gated h.module hfuel).of_ok hrun).2.resolves
    obtain ⟨result, q', hq, hiff, hleaves⟩ :=
      resolveArchetypes_of_resolves (e := r.error) h hvm hr hfuel
    cases hrun'.symm.trans hq
    exact ⟨⟨hnodup, hroom, hscoped, hiff.mp rfl⟩, htree hrun hr.root (hleaves rfl)⟩
  · rintro ⟨⟨hnodup, hroom, hscoped, harchetypes⟩, rfl⟩
    obtain ⟨r, hrun, env, hr⟩ := hsymbols.mpr ⟨hnodup, hroom, hscoped⟩
    obtain ⟨result, q, hq, hiff, hleaves⟩ :=
      resolveArchetypes_of_resolves (e := r.error) h hvm hr hfuel
    obtain rfl := hiff.mpr harchetypes
    exact ⟨r, q, hrun, hq, htree hrun hr.root (hleaves rfl)⟩

end

/-! ### The compiler -/

/-- What a call of `nulang_compile` does when its three passes succeed. -/
theorem compile_of_passes {vm : TableManager} {fuel : Nat} {uninit : NodeId} {c : Compiler}
    {source : Source} {p : Parser Lexer} {r : SymbolResolver} {q : ArchetypeResolver}
    (hparse : parse fuel (compilerStart c source uninit) = some (.ok (), p))
    (hsymbols : resolveSymbols fuel ⟨p.ast, [], p.error⟩ = some (.ok (), r))
    (harchetypes : resolveArchetypes vm fuel ⟨r.ast, r.error⟩ = some (.ok (), q)) :
    ∃ d, compile vm fuel uninit c source = some (.success, d) ∧ d.ast = q.ast := by
  have hanalyze : analyze vm fuel p.ast p.error = some (.ok (), q.ast, q.error) := by
    unfold analyze
    rw [hsymbols]
    simp only [harchetypes]
  rw [compile_eq, hparse]
  simp only [hanalyze, Option.map_some]
  exact ⟨_, rfl, rfl⟩

section
variable {K : UInt32} (hK : 0 < K.toNat) {c : Compiler} (hc : Used K c) {vm : TableManager}
  {created : List CreateCall} (hvm : IsRegistry vm created) {uninit : NodeId} {source : Source}
include hK hc hvm

/-- A source that compiles is a correct module, and its tree is the module with its archetypes. -/
theorem correct_of_compile {fuel : Nat} {d : Compiler}
    (hrun : compile vm fuel uninit c source = some (.success, d)) :
    ∃ m, DerivesModule (resultsOf source) m ∧ m.size + 1 ≤ K.toNat ∧
      StaticallyCorrect maxSymbols (Registered created) m ∧
      d.ast.syntaxOf = m.map (Kind.resolve (handleOf vm)) := by
  have horder := inOrder_of_used hK hc
  have hblank : (compilerPrepare c source).ast.Blank := InOrder.blank horder hK
  have hfree := hblank.toCleared.free_eq
  rw [show (compilerPrepare c source).ast.nodeCapacity = K from horder.capacity] at hfree
  obtain ⟨p, r, q, hparse, hsymbols, harchetypes, hast⟩ := compile_success hrun
  obtain ⟨hder, hsize⟩ := derivesModule_of_parse hblank.toCleared hparse
  obtain ⟨cs, hready⟩ := readied_of_parse hblank hparse
  -- the passes give the same with more fuel
  have hsymbols' := le_resolveSymbols (m := fuel + cs.size + 2) (by omega) _ _ hsymbols
  have harchetypes' := le_resolveArchetypes (m := fuel + cs.size + 2) (by omega) _ _ harchetypes
  obtain ⟨hcorrect, htree⟩ := (passes_iff hready hvm (by omega)).mp
    ⟨r, q, hsymbols', harchetypes', rfl⟩
  rw [hast]
  exact ⟨_, hder, by omega, hcorrect, htree⟩

/-- A correct module compiles. -/
theorem compile_of_correct {m : Syn} (hder : DerivesModule (resultsOf source) m)
    (hsize : m.size + 1 ≤ K.toNat)
    (hcorrect : StaticallyCorrect maxSymbols (Registered created) m) :
    ∃ fuel d, compile vm fuel uninit c source = some (.success, d) ∧
      d.ast.syntaxOf = m.map (Kind.resolve (handleOf vm)) := by
  have horder := inOrder_of_used hK hc
  have hblank : (compilerPrepare c source).ast.Blank := InOrder.blank horder hK
  have hfree := hblank.toCleared.free_eq
  rw [show (compilerPrepare c source).ast.nodeCapacity = K from horder.capacity] at hfree
  obtain ⟨fuel, p, hparse, rfl⟩ := parse_of_derivesModule c.errorData uninit hblank.toCleared
    hder (by omega)
  obtain ⟨cs, hready⟩ := readied_of_parse hblank hparse
  have hfuel : cs.size + 1 < fuel + cs.size + 2 := by omega
  obtain ⟨r, q, hsymbols, harchetypes, htree⟩ :=
    (passes_iff (e := p.error) hready hvm hfuel).mpr ⟨hcorrect, rfl⟩
  have hparse' := le_parse (m := fuel + cs.size + 2) (by omega) _ _ hparse
  obtain ⟨d, hrun, hast⟩ := compile_of_passes hparse' hsymbols harchetypes
  exact ⟨_, d, hrun, by rw [hast, htree]⟩

end

/-! ### More archetypes -/

/-- The handle of the newest creation whose name is stored with the hash `u`, the newest first in
the list. -/
def newestHandle (u : UInt32) : List CreateCall → Archetype
  | [] => archetypeNull
  | c :: older =>
      if storedUid c.name = u then UInt16.ofNat (older.length + 1) else newestHandle u older

/-- Creations under other names do not change the newest one under a name. -/
theorem newestHandle_append {u : UInt32} {newer older : List CreateCall}
    (h : ¬ Registered newer u) : newestHandle u (newer ++ older) = newestHandle u older := by
  induction newer with
  | nil => rfl
  | cons c newer ih =>
      have hne : storedUid c.name ≠ u := fun heq => h ⟨c, by simp, heq⟩
      rw [List.cons_append, newestHandle, if_neg hne]
      exact ih fun hreg => h (hreg.imp fun c hc => ⟨by simp [hc.1], hc.2⟩)

/-- The registry has the newest handle for every hash. -/
theorem IsRegistry.handleOf_eq {vm : TableManager} {created : List CreateCall}
    (hvm : IsRegistry vm created) (u : UInt32) :
    handleOf vm u = newestHandle u created.reverse := by
  have hcap : created.length ≤ vm.archetypeCapacity.toNat := by
    rw [← hvm.count]
    exact UInt16.le_iff_toNat_le.mp hvm.archetypes_le
  have hlt := vm.archetypeCapacity.toNat_lt
  have hval : ∀ i < created.length, (UInt16.ofNat (i + 1)).toNat = i + 1 := fun i hi =>
    UInt16.toNat_ofNat_of_lt' (show i + 1 < 65536 by omega)
  -- the search goes over the first `n` handles as over the first `n` creations
  have key : ∀ n ≤ created.length, (((handlesOf n).reverse.find? fun x =>
      identUid (vm.archetypes (x.toNat - 1)).name = u).getD 0) =
        newestHandle u (created.take n).reverse := by
    intro n
    induction n with
    | zero => exact fun _ => rfl
    | succ n ih =>
        intro hn
        have hget : created[n]? = some created[n] := List.getElem?_eq_getElem (by omega)
        have huid : identUid (vm.archetypes ((UInt16.ofNat (n + 1)).toNat - 1)).name =
            storedUid created[n].name := by
          rw [hval n (by omega), Nat.add_sub_cancel]
          exact identUid_eq (hvm.names n _ hget)
        have hlen : (created.take n).reverse.length = n := by
          rw [List.length_reverse, List.length_take]
          omega
        rw [handlesOf_succ, List.take_succ_eq_append_getElem (by omega), List.reverse_append,
          List.reverse_singleton, List.singleton_append, newestHandle, hlen]
        by_cases heq : storedUid created[n].name = u
        · rw [List.find?_cons_of_pos (by rw [huid]; simpa using heq), if_pos heq]
          rfl
        · rw [List.find?_cons_of_neg (by rw [huid]; simpa using heq), if_neg heq]
          exact ih (by omega)
  have hloop : archetypeFind vm u = _ := archetypeFindLoop_eq hvm.chain (fun x hx => by
    rw [List.mem_reverse, handlesOf, List.mem_map] at hx
    obtain ⟨i, hi, rfl⟩ := hx
    have hi := List.mem_range.mp hi
    rw [hval i hi]
    omega) (by simp [handlesOf]; omega)
  unfold handleOf
  rw [hloop, Option.getD_some, key _ (Nat.le_refl _), List.take_length]

/-- The creation of an archetype without fields. -/
def bareCreation (name : List Char) : CreateCall := ⟨name, fun _ => ⟨[], .int, 0⟩, 0⟩

/-- The registry behind such a creation. -/
def withArchetype (vm : TableManager) (name : List Char) : TableManager :=
  (Vm.vmCreateArchetype vm name (bareCreation name).fields 0).2.2

/-- A registry with a player, and room for one more. -/
def playerTables : TableManager :=
  withArchetype (tableManagerInit 2 1 1 filledMemory) "player".toList

/-- The source `function f(p: player) end let x = insert(player)`. -/
def playerSource : Source :=
  ⟨"function f(p: player) end let x = insert(player)".toList, by decide⟩

end Nucleus.Proofs
