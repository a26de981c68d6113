import Nucleus.Lib.Lockstep
import Nucleus.Proofs.Fuel
import Nucleus.Proofs.Reuse
import Nucleus.Proofs.Static
import Nucleus.Spec.Session

/-!
# `Nucleus.Proofs.Session`: memory that was not initialised is not observed

Two programs that agree make the same calls, in any order and on any number of virtual machines and
compilers. `Beside` holds between their sessions: the registries hold the same creations in tables
of the same capacities, and the compilers have the same capacities and are in order. A call keeps it
and has the same answer in both (`call_alike`, `call_ends`). So no answer depends on what was in a
block, in a local or in a structure before the library stored to it (`session_alike`).
-/

set_option autoImplicit false

namespace Nucleus.Proofs

open Nucleus.Lib
open Nucleus.Lib.Prog
open Nucleus.Lang
open Nucleus.Spec
open Nucleus.Vm (TableManager NuVm VmProperties FieldInfo MemoryUsage allocatorCallback alloc
  checkBlock tableManagerAlloc tableManagerInit resourceManagerInit loadProperties vmInit
  vmCreateArchetype archetypeFind)

/-! ### Virtual machines -/

/-- Two table managers with the same creations and the same capacities. -/
structure TablesAlike (created : List CreateCall) (m m' : TableManager) : Prop where
  registry : IsRegistry m created
  registry' : IsRegistry m' created
  archetypeCapacity : m.archetypeCapacity = m'.archetypeCapacity
  fieldCapacity : m.fieldCapacity = m'.fieldCapacity

/-- Two virtual machines with table managers that are alike. -/
def VmsAlike (v v' : NuVm) : Prop := ∃ created, TablesAlike created v.tables v'.tables

section
variable {created : List CreateCall} {m m' : TableManager}

/-- Tables that are alike have as many archetypes. -/
theorem TablesAlike.archetypeCount (h : TablesAlike created m m') :
    m.archetypeCount = m'.archetypeCount :=
  UInt16.toNat_inj.mp (h.registry.count.trans h.registry'.count.symm)

/-- Tables that are alike have as many fields. -/
theorem TablesAlike.fieldCount (h : TablesAlike created m m') : m.fieldCount = m'.fieldCount :=
  UInt16.toNat_inj.mp (h.registry.cover.trans h.registry'.cover.symm)

/-- The newest creation under a hash is found in both. -/
theorem TablesAlike.archetypeFind_eq (h : TablesAlike created m m') (u : UInt32) :
    archetypeFind m u = archetypeFind m' u := by
  rw [h.registry.archetypeFind_eq, h.registry'.archetypeFind_eq, h.registry.handleOf_eq,
    h.registry'.handleOf_eq]

/-- A table manager is full for a creation. -/
def FullFor (m : TableManager) (fieldCount : UInt16) : Prop :=
  m.archetypeCount.toNat + 1 > m.archetypeCapacity.toNat ∨
    m.fieldCount.toNat + fieldCount.toNat > m.fieldCapacity.toNat

/-- Full tables stay as they are, and the creation fails. -/
theorem vmCreateArchetype_full {c : CreateCall} (h : FullFor m c.fieldCount) :
    vmCreateArchetype m c.name c.fields c.fieldCount = (some .outOfMemory, 0, m) := by
  unfold FullFor at h
  unfold vmCreateArchetype Vm.archetypeCreate
  rw [if_pos h]

/-- With room the creation succeeds with the next handle. -/
theorem vmCreateArchetype_room {c : CreateCall} (h : ¬ FullFor m c.fieldCount) :
    ∃ n, vmCreateArchetype m c.name c.fields c.fieldCount = (none, m.archetypeCount + 1, n) ∧
      n.archetypeCapacity = m.archetypeCapacity ∧ n.fieldCapacity = m.fieldCapacity := by
  rcases vmCreateArchetype_cases m c with ⟨handle, n, hcall, hcreated⟩ | hfull
  · exact ⟨n, by rw [hcall, hcreated.handle_eq], hcreated.archetypeCapacity, hcreated.fieldCapacity⟩
  · unfold FullFor at h
    unfold vmCreateArchetype Vm.archetypeCreate at hfull
    rw [if_neg h] at hfull
    cases hfull

/-- A creation has the same answer in both. -/
theorem TablesAlike.create (h : TablesAlike created m m') (c : CreateCall) :
    ∃ error handle n n', vmCreateArchetype m c.name c.fields c.fieldCount = (error, handle, n) ∧
      vmCreateArchetype m' c.name c.fields c.fieldCount = (error, handle, n') ∧
      ∃ created, TablesAlike created n n' := by
  have hfull : FullFor m c.fieldCount ↔ FullFor m' c.fieldCount := by
    rw [FullFor, FullFor, h.archetypeCount, h.fieldCount, h.archetypeCapacity, h.fieldCapacity]
  by_cases hm : FullFor m c.fieldCount
  · exact ⟨_, _, _, _, vmCreateArchetype_full hm, vmCreateArchetype_full (hfull.mp hm), created, h⟩
  · obtain ⟨n, hcall, hac, hfc⟩ := vmCreateArchetype_room hm
    obtain ⟨n', hcall', hac', hfc'⟩ := vmCreateArchetype_room fun hm' => hm (hfull.mpr hm')
    refine ⟨_, _, n, n', hcall, by rw [hcall', h.archetypeCount], created ++ [c], ?_⟩
    exact {
      registry := (CreateRun.isRegistry h.registry (.ok c .refl hcall)).1
      registry' := (CreateRun.isRegistry h.registry' (.ok c .refl hcall')).1
      archetypeCapacity := by rw [hac, hac', h.archetypeCapacity]
      fieldCapacity := by rw [hfc, hfc', h.fieldCapacity] }

end

section
variable {E E' : Type} {R : E → E' → Prop} {p : Program E} {p' : Program E'}

/-! ### `nu_vm_init` and `nulang_compiler_init` -/

section
variable {ε : Type} (h : Program.Agree R p p')
include h

/-- The callbacks of programs that agree answer alike. -/
theorem lockstep_callback (size align : Nat) (usage : MemoryUsage) :
    Lockstep R Eq (allocatorCallback p.toHost size align usage : Prog E ε Bool)
      (allocatorCallback p'.toHost size align usage) := by
  intro e e' hR
  obtain ⟨hanswer, hnext⟩ := h.callback e e' hR size align usage
  exact .ok hanswer hnext

/-- Allocations answer alike. -/
theorem lockstep_alloc (size : Nat) (usage : MemoryUsage) :
    Lockstep R Eq (alloc p.toHost size usage : Prog E ε Bool) (alloc p'.toHost size usage) :=
  lockstep_ite lockstep_diverge (lockstep_callback h size 16 usage)

end

/-- Both runs fail at the same missing block. -/
theorem lockstep_checkBlock {block block' : Bool} (h : block = block') :
    Lockstep R (fun _ _ => True) (checkBlock block) (checkBlock block') := by
  subst h
  exact lockstep_ite (.pure trivial) (lockstep_fail _)

section
variable (h : Program.Agree R p p')
include h

/-- A block that is checked. -/
theorem lockstep_checkedAlloc {α β : Type} {Q : α → β → Prop} {size size' : Nat}
    {usage : MemoryUsage} {k : Prog E Vm.Error α} {k' : Prog E' Vm.Error β} (hsize : size = size')
    (hk : Lockstep R Q k k') :
    Lockstep R Q (do
        let block ← alloc p.toHost size usage
        checkBlock block
        k) (do
        let block ← alloc p'.toHost size' usage
        checkBlock block
        k') := by
  subst hsize
  exact .bind (lockstep_alloc h size usage) fun _ _ hblock =>
    .bind (lockstep_checkBlock hblock) fun _ _ _ => hk

/-- The table managers hold no creation yet, whatever was in their blocks. -/
theorem lockstep_tableManagerAlloc (ac fc cc : UInt16) :
    Lockstep R (TablesAlike []) (tableManagerAlloc p.toHost ac fc cc)
      (tableManagerAlloc p'.toHost ac fc cc) := by
  refine lockstep_ite lockstep_diverge ?_
  refine lockstep_checkedAlloc h (by rw [h.sizes]) ?_
  refine lockstep_checkedAlloc h (by rw [h.sizes]) ?_
  refine lockstep_checkedAlloc h (by rw [h.sizes]) ?_
  refine lockstep_checkedAlloc h rfl ?_
  refine .bind (.gets fun _ _ _ => trivial) fun memory memory' (_ : True) => .pure ?_
  exact ⟨isRegistry_init ac fc cc memory, isRegistry_init ac fc cc memory', rfl, rfl⟩

/-- The properties are loaded alike. -/
theorem lockstep_loadProperties :
    Lockstep R SameCapacities (loadProperties p.toHost) (loadProperties p'.toHost) := by
  intro e e' hR
  obtain ⟨herror, hprops, hnext⟩ := h.load e e' hR
  show Together R SameCapacities (loadProperties p.toHost e) (loadProperties p'.toHost e')
  unfold loadProperties
  simp only [← herror]
  cases herr : (p.load .vmProperties (p.properties e) e).1.1 with
  | none => exact .ok (hprops herr) hnext
  | some error => exact .error hnext

/-- `nu_vm_init`: the errors are the same, and the virtual machines hold no creation. -/
theorem lockstep_vmInit :
    Lockstep R (fun v v' => TablesAlike [] v.tables v'.tables) (vmInit p.toHost)
      (vmInit p'.toHost) := by
  unfold vmInit
  rw [h.sizes]
  refine .bind (lockstep_callback h _ _ _) fun _ _ hblock => ?_
  refine .bind (lockstep_checkBlock hblock) fun _ _ _ => ?_
  refine .bind (lockstep_loadProperties h) fun props props' hprops => ?_
  rw [hprops.table, hprops.field, hprops.chunk, hprops.resource]
  refine .bind (lockstep_tableManagerAlloc h _ _ _) fun tables tables' htables => ?_
  refine .bind ?_ fun _ _ (_ : True) => .pure htables
  exact lockstep_checkedAlloc h (by rw [h.sizes]) (.pure trivial)

/-- A compiler of the capacity `K` and an arena for it. -/
def ArenasAlike (K : UInt32) (a a' : Ast) : Prop :=
  0 < K.toNat ∧ (∃ memory, a = astInit K memory) ∧ ∃ memory, a' = astInit K memory

/-- Arenas are allocated alike, up to what was in their memory. -/
theorem lockstep_astAlloc (K : UInt32) :
    Lockstep R (ArenasAlike K) (astAlloc p K) (astAlloc p' K) := by
  unfold astAlloc
  by_cases hK : K = 0
  · rw [if_pos hK, if_pos hK]
    exact lockstep_diverge
  · rw [if_neg hK, if_neg hK, h.sizes]
    refine .bind (lockstep_alloc h _ _) fun block block' hblock => ?_
    subst hblock
    refine lockstep_ite
      (.bind (.gets fun _ _ _ => trivial) fun memory memory' (_ : True) => .pure ?_)
      (lockstep_fail _)
    have hpos : 0 < K.toNat := Nat.pos_of_ne_zero fun hzero => hK (UInt32.toNat_inj.mp hzero)
    exact ⟨hpos, ⟨memory, rfl⟩, memory', rfl⟩

end

/-! ### `nulang_compile` -/

/-- `nulang_compile` reads nothing of a virtual machine but what its registry finds. -/
theorem compile_congr {m m' : TableManager} (hfind : ∀ u, archetypeFind m u = archetypeFind m' u) :
    compile m = compile m' := by
  -- the manager is only asked for handles
  have hnode : findArchetype m = findArchetype m' := by
    funext node name span
    rw [findArchetype, findArchetype, hfind]
  have hstep : resolveNodeArchetype m = resolveNodeArchetype m' := by
    have hvartype : resolveVartype m = resolveVartype m' := by
      funext node span vartype
      rw [resolveVartype, resolveVartype, hnode]
    funext node
    rw [resolveNodeArchetype, resolveNodeArchetype, hvartype, hnode]
  have hresolve : ∀ fuel, resolveArchetype m fuel = resolveArchetype m' fuel := by
    intro fuel
    induction fuel with
    | zero => rfl
    | succ fuel ih =>
        funext id node
        rw [resolveArchetype, resolveArchetype, hstep, ih]
  have hanalyze : analyze m = analyze m' := by
    funext fuel ast error
    have harchetypes : resolveArchetypes m fuel = resolveArchetypes m' fuel := by
      rw [resolveArchetypes, resolveArchetypes, hresolve]
    rw [analyze, analyze, harchetypes]
  funext fuel uninit compiler source
  rw [compile, compile, hanalyze]

section
variable {K : UInt32} {c c' d d' : Compiler} {m m' : TableManager} {source : Source}
  {status status' : Status} {fuel fuel' : Nat} {uninit uninit' : NodeId}

/-- A failed call has an error code. -/
theorem error_of_compile (h : compile m fuel uninit c source = some (status, d)) :
    status = .success ∧ d.error = none ∨ status = .failure ∧ d.error ≠ none := by
  have hresult : ∀ {r : Except Error Unit} {a : Ast} {e : ErrorData},
      compilerResult (compilerPrepare c source) r a e = (status, d) →
        status = .success ∧ d.error = none ∨ status = .failure ∧ d.error ≠ none := by
    intro r a e heq
    cases r with
    | ok _ =>
        cases heq
        exact Or.inl ⟨rfl, rfl⟩
    | error e =>
        cases heq
        exact Or.inr ⟨rfl, Option.some_ne_none e⟩
  rw [compile_eq] at h
  split at h
  · cases h
  · exact hresult (Option.some.inj h)
  · obtain ⟨x, -, hx⟩ := Option.map_eq_some_iff.mp h
    exact hresult hx

/-- An error that always stores a span is none of those of a blind exit. -/
theorem not_endsBlind_of_compile (hK : 0 < K.toNat) (hc : c.InOrder K)
    (h : compile m fuel uninit c source = some (status, d)) {e : Error} (he : d.error = some e)
    (hplaced : e ∉ unplacedErrors) : ¬ EndsBlind (resultsOf source) (K.toNat - 1) := by
  intro hblind
  obtain ⟨hat, hfree⟩ := at_compilerStart hK hc source uninit
  rw [← hfree] at hblind
  obtain ⟨fuel', e', p, hparse', -⟩ := parse_of_endsBlind hblind hat
  rw [compile_eq] at h
  rcases hparse : parse fuel (compilerStart c source uninit) with _ | r
  · rw [hparse] at h
    cases h
  · cases parse_unique hparse' hparse
    rw [hparse] at h
    cases h
    obtain rfl : e' = e := Option.some.inj he
    rcases unplaced_of_endsBlind hblind hat hparse with rfl | rfl
    · exact hplaced (by decide)
    · exact hplaced (by decide)

/-- Two calls on compilers of the same capacity that both end. -/
theorem compile_both (hK : 0 < K.toNat) (hc : c.InOrder K) (hc' : c'.InOrder K)
    (hfind : ∀ u, archetypeFind m u = archetypeFind m' u)
    (hrun : compile m fuel uninit c source = some (status, d))
    (hrun' : compile m' fuel' uninit' c' source = some (status', d')) :
    Answer.Alike (.compile status d) (.compile status' d') ∧ d.InOrder K ∧ d'.InOrder K := by
  rw [← compile_congr hfind] at hrun'
  -- the fuel of both runs is as good as that of either
  have hmax := compile_mono (Nat.le_max_left fuel fuel') hrun
  have hmax' := compile_mono (Nat.le_max_right fuel fuel') hrun'
  rcases compile_twins hK hc hc' source m (max fuel fuel') uninit uninit' with
    ⟨hnone, -⟩ | ⟨st, f, f', htwin, htwin', halike⟩
  · rw [hmax] at hnone
    cases hnone
  · rw [hmax] at htwin
    rw [hmax'] at htwin'
    cases htwin
    cases htwin'
    refine ⟨.compile halike.error halike.same fun e he hplaced => ?_,
      halike.inOrder, halike.inOrder'⟩
    rcases error_of_compile hmax with ⟨-, hnone⟩ | ⟨hfailure, -⟩
    · rw [hnone] at he
      cases he
    · exact (halike.span hfailure
        (not_endsBlind_of_compile hK hc' hmax' (halike.error.symm.trans he) hplaced)).1

/-- A call ends on a compiler when it ends on another one of its capacity. -/
theorem compile_ends (hK : 0 < K.toNat) (hc : c.InOrder K) (hc' : c'.InOrder K)
    (hfind : ∀ u, archetypeFind m u = archetypeFind m' u) (uninit' : NodeId)
    (hrun : compile m fuel uninit c source = some (status, d)) :
    ∃ r, compile m' fuel uninit' c' source = some r := by
  rw [← compile_congr hfind]
  rcases compile_twins hK hc hc' source m fuel uninit uninit' with
    ⟨hnone, -⟩ | ⟨st, f, f', -, hrun', -⟩
  · rw [hrun] at hnone
    cases hnone
  · exact ⟨_, hrun'⟩

end

/-! ### Sessions -/

/-- Two compilers of the same capacity in order, on virtual machines at the same place. -/
def CompilersAlike (c c' : Nat × Compiler) : Prop :=
  c.1 = c'.1 ∧ ∃ K : UInt32, 0 < K.toNat ∧ c.2.InOrder K ∧ c'.2.InOrder K

/-- A pair that is replaced by a pair in relation. -/
theorem forall₂_set {α β : Type} {r : α → β → Prop} {l : List α} {l' : List β}
    (h : List.Forall₂ r l l') (i : Nat) {a : α} {b : β} (hab : r a b) :
    List.Forall₂ r (l.set i a) (l'.set i b) := by
  induction h generalizing i with
  | nil => exact .nil
  | cons hhead htail ih =>
      cases i with
      | zero => exact .cons hab htail
      | succ i => exact .cons hhead (ih i)

/-- Lists in relation have elements in relation at the same places. -/
theorem forall₂_getElem? {α β : Type} {r : α → β → Prop} {l : List α} {l' : List β}
    (h : List.Forall₂ r l l') (i : Nat) :
    l[i]? = none ∧ l'[i]? = none ∨ ∃ a b, l[i]? = some a ∧ l'[i]? = some b ∧ r a b := by
  have hlen := h.length_eq
  rcases Nat.lt_or_ge i l.length with hlt | hge
  · exact Or.inr ⟨_, _, List.getElem?_eq_getElem hlt, List.getElem?_eq_getElem (hlen ▸ hlt),
      h.get hlt (hlen ▸ hlt)⟩
  · exact Or.inl ⟨List.getElem?_eq_none hge, List.getElem?_eq_none (hlen ▸ hge)⟩

/-- Two sessions that a program cannot tell apart. -/
structure Beside (R : E → E' → Prop) (s : Session E) (s' : Session E') : Prop where
  program : R s.program s'.program
  vms : List.Forall₂ VmsAlike s.vms s'.vms
  compilers : List.Forall₂ CompilersAlike s.compilers s'.compilers

/-- Two calls that end together, with the same answer. -/
inductive Paired (R : E → E' → Prop) :
    Option (Answer × Session E) → Option (Answer × Session E') → Prop where
  | neither : Paired R none none
  | both {a a' : Answer} {s : Session E} {s' : Session E'} : a.Alike a' → Beside R s s' →
      Paired R (some (a, s)) (some (a', s'))

/-- When one side ends so does the other. -/
theorem Paired.ends {o : Option (Answer × Session E)} {o' : Option (Answer × Session E')}
    (h : Paired R o o') {x : Answer × Session E} (hx : o = some x) : ∃ x', o' = some x' := by
  cases h with
  | neither => cases hx
  | both _ _ => exact ⟨_, rfl⟩

/-- The answers of both sides are alike. -/
theorem Paired.alike {o : Option (Answer × Session E)} {o' : Option (Answer × Session E')}
    (h : Paired R o o') {a a' : Answer} {s : Session E} {s' : Session E'} (ho : o = some (a, s))
    (ho' : o' = some (a', s')) : a.Alike a' ∧ Beside R s s' := by
  cases h with
  | neither => cases ho
  | both halike hbeside =>
      cases ho
      cases ho'
      exact ⟨halike, hbeside⟩

section
variable {s : Session E} {s' : Session E'} (hs : Beside R s s')
include hs

/-- The compiler of a call and its virtual machine have one each beside them. -/
theorem Beside.compiler {k vm : Nat} {c : Compiler} {v : NuVm}
    (hc : s.compilers[k]? = some (vm, c)) (hv : s.vms[vm]? = some v) :
    ∃ c' v' K created, s'.compilers[k]? = some (vm, c') ∧ s'.vms[vm]? = some v' ∧
      0 < UInt32.toNat K ∧ c.InOrder K ∧ c'.InOrder K ∧ TablesAlike created v.tables v'.tables := by
  rcases forall₂_getElem? hs.compilers k with ⟨hnone, -⟩ |
    ⟨_, ⟨vm', c'⟩, hc₀, hc', hvm, K, hK, ho, ho'⟩
  · rw [hc] at hnone
    cases hnone
  rw [hc] at hc₀
  cases hc₀
  obtain rfl : vm = vm' := hvm
  rcases forall₂_getElem? hs.vms vm with ⟨hnone, -⟩ | ⟨_, v', hv₀, hv', created, halike⟩
  · rw [hv] at hnone
    cases hnone
  rw [hv] at hv₀
  cases hv₀
  exact ⟨c', v', K, created, hc', hv', hK, ho, ho', halike⟩

/-- `nu_vm_init` answers alike. -/
theorem paired_vmInit (h : Program.Agree R p p') :
    Paired R (callVmInit p s) (callVmInit p' s') := by
  have hinit := lockstep_vmInit h s.program s'.program hs.program
  unfold callVmInit
  generalize vmInit p.toHost s.program = o at hinit
  generalize vmInit p'.toHost s'.program = o' at hinit
  cases hinit with
  | none => exact .neither
  | error hR => exact .both (.vmInit _) ⟨hR, hs.vms, hs.compilers⟩
  | ok hv hR =>
      exact .both (.vmInit _) ⟨hR, List.rel_append hs.vms (.cons ⟨[], hv⟩ .nil), hs.compilers⟩

/-- `nu_vm_create_archetype` answers alike. -/
theorem paired_createArchetype (vm : Nat) (name : List Char) (fields : Nat → FieldInfo)
    (fieldCount : UInt16) :
    Paired R (callCreateArchetype s vm name fields fieldCount)
      (callCreateArchetype s' vm name fields fieldCount) := by
  unfold callCreateArchetype
  rcases forall₂_getElem? hs.vms vm with ⟨hnone, hnone'⟩ | ⟨v, v', hv, hv', created, halike⟩
  · rw [hnone, hnone']
    exact .neither
  · obtain ⟨error, handle, n, n', hcall, hcall', hafter⟩ := halike.create ⟨name, fields, fieldCount⟩
    rw [hv, hv', Option.map_some, Option.map_some]
    simp only [hcall, hcall']
    exact .both (.createArchetype _ _) ⟨hs.program, forall₂_set hs.vms vm hafter, hs.compilers⟩

/-- `nu_nulang_compiler_init` answers alike. -/
theorem paired_compilerInit (h : Program.Agree R p p') (vm : Nat) (nodeCapacity : UInt64) :
    Paired R (callCompilerInit p s vm nodeCapacity) (callCompilerInit p' s' vm nodeCapacity) := by
  have hinit := lockstep_astAlloc h nodeCapacity.toUInt32 s.program s'.program hs.program
  unfold callCompilerInit
  rw [hs.vms.length_eq]
  generalize astAlloc p nodeCapacity.toUInt32 s.program = o at hinit
  generalize astAlloc p' nodeCapacity.toUInt32 s'.program = o' at hinit
  split
  · cases hinit with
    | none => exact .neither
    | error hR => exact .both (.compilerInit _ _) ⟨hR, hs.vms, hs.compilers⟩
    | ok ha hR =>
        obtain ⟨hpos, ⟨memory, rfl⟩, memory', rfl⟩ := ha
        -- both compilers are new, with arenas of the same capacity
        have hcompilers : CompilersAlike
            (vm, { p.compilerMemory s.program with ast := astInit _ memory, error := none })
            (vm, { p'.compilerMemory s'.program with ast := astInit _ memory', error := none }) :=
          ⟨rfl, nodeCapacity.toUInt32, hpos, ⟨rfl, rfl, rfl⟩, rfl, rfl, rfl⟩
        exact .both (.compilerInit _ _)
          ⟨hR, hs.vms, List.rel_append hs.compilers (.cons hcompilers .nil)⟩
  · exact .neither

end

/-- A call of `nulang_compile` in a session. -/
theorem callCompile_eq_some {s : Session E} {fuel : Nat} {uninit : NodeId} {k : Nat}
    {source : Source} {x : Answer × Session E} :
    callCompile fuel uninit s k source = some x ↔
      ∃ vm c v status d, s.compilers[k]? = some (vm, c) ∧ s.vms[vm]? = some v ∧
        compile v.tables fuel uninit c source = some (status, d) ∧
        x = (.compile status d, { s with compilers := s.compilers.set k (vm, d) }) := by
  constructor
  · intro h
    obtain ⟨⟨vm, c⟩, hc, h⟩ := Option.bind_eq_some_iff.mp h
    obtain ⟨v, hv, h⟩ := Option.bind_eq_some_iff.mp h
    obtain ⟨⟨status, d⟩, hrun, h⟩ := Option.bind_eq_some_iff.mp h
    exact ⟨vm, c, v, status, d, hc, hv, hrun, (Option.some.inj h).symm⟩
  · rintro ⟨vm, c, v, status, d, hc, hv, hrun, rfl⟩
    exact Option.bind_eq_some_iff.mpr ⟨_, hc, Option.bind_eq_some_iff.mpr ⟨_, hv,
      Option.bind_eq_some_iff.mpr ⟨_, hrun, rfl⟩⟩⟩

section
variable {s t : Session E} {s' t' : Session E'} {fuel fuel' : Nat} {uninit : NodeId} {c : Call}
  {a a' : Answer}

/-- A call that ends in one session ends in the other. -/
theorem call_ends (h : Program.Agree R p p') (hs : Beside R s s') (uninit' : NodeId)
    (hcall : call p fuel uninit c s = some (a, t)) :
    ∃ x, call p' fuel uninit' c s' = some x := by
  cases c with
  | vmInit => exact (paired_vmInit hs h).ends hcall
  | createArchetype vm name fields n =>
      exact (paired_createArchetype hs vm name fields n).ends hcall
  | compilerInit vm n => exact (paired_compilerInit hs h vm n).ends hcall
  | compile k source =>
      obtain ⟨vm, c, v, status, d, hc, hv, hrun, -⟩ := callCompile_eq_some.mp hcall
      obtain ⟨c', v', K, created, hc', hv', hK, ho, ho', halike⟩ := hs.compiler hc hv
      obtain ⟨r, hrun'⟩ := compile_ends hK ho ho' halike.archetypeFind_eq uninit' hrun
      exact ⟨_, callCompile_eq_some.mpr ⟨vm, c', v', r.1, r.2, hc', hv', hrun', rfl⟩⟩

/-- A call that ends in both has the same answer, and keeps the sessions side by side. -/
theorem call_alike (h : Program.Agree R p p') (hs : Beside R s s') {uninit' : NodeId}
    (hcall : call p fuel uninit c s = some (a, t))
    (hcall' : call p' fuel' uninit' c s' = some (a', t')) : a.Alike a' ∧ Beside R t t' := by
  cases c with
  | vmInit => exact (paired_vmInit hs h).alike hcall hcall'
  | createArchetype vm name fields n =>
      exact (paired_createArchetype hs vm name fields n).alike hcall hcall'
  | compilerInit vm n => exact (paired_compilerInit hs h vm n).alike hcall hcall'
  | compile k source =>
      obtain ⟨vm, c, v, status, d, hc, hv, hrun, heq⟩ := callCompile_eq_some.mp hcall
      obtain ⟨vm', c', v', status', d', hc', hv', hrun', heq'⟩ := callCompile_eq_some.mp hcall'
      obtain ⟨_, _, K, created, hc₀, hv₀, hK, ho, ho', halike⟩ := hs.compiler hc hv
      cases heq
      cases heq'
      rw [hc'] at hc₀
      cases hc₀
      rw [hv'] at hv₀
      cases hv₀
      -- alike compilers of one manager answer alike
      obtain ⟨hanswer, hd, hd'⟩ := compile_both hK ho ho' halike.archetypeFind_eq hrun hrun'
      exact ⟨hanswer, hs.program, hs.vms, forall₂_set hs.compilers k ⟨rfl, K, hK, hd, hd'⟩⟩

/-- A session that was computed is a run. -/
theorem sessionRun_of_runCalls {cs : List Call} {x : List Answer × Session E}
    (h : runCalls p fuel uninit cs s = some x) : SessionRun p cs x.1 s x.2 := by
  induction cs generalizing s x with
  | nil =>
      cases h
      exact Trace.refl s
  | cons c cs ih =>
      obtain ⟨⟨a, s₁⟩, hcall, h⟩ := Option.bind_eq_some_iff.mp h
      obtain ⟨y, hy, rfl⟩ := Option.map_eq_some_iff.mp h
      exact Trace.cons ⟨fuel, uninit, hcall⟩ (ih hy)

end

/-- No answer depends on memory that was not initialised: two programs whose allocators and
cartridges give the same answers can make the same calls, and whenever they do they get the same
answers. -/
theorem session_alike {E E' : Type} {R : E → E' → Prop} {p : Program E} {p' : Program E'}
    (h : Program.Agree R p p') {e : E} {e' : E'} (hR : R e e') {cs : List Call} {as : List Answer}
    {s : Session E} (hrun : SessionRun p cs as (sessionStart e) s) :
    (∃ as' s', SessionRun p' cs as' (sessionStart e') s') ∧
      ∀ as' s', SessionRun p' cs as' (sessionStart e') s' → List.Forall₂ Answer.Alike as as' := by
  have hstart : Beside R (sessionStart e) (sessionStart e') := ⟨hR, .nil, .nil⟩
  constructor
  · have hfollow : ∀ s s' c a t, Beside R s s' → SessionStep p s c a t →
        ∃ a' t', SessionStep p' s' c a' t' ∧ a.Alike a' ∧ Beside R t t' := by
      rintro s s' c a t hs ⟨fuel, uninit, hcall⟩
      obtain ⟨⟨a', t'⟩, hcall'⟩ := call_ends h hs 0 hcall
      exact ⟨a', t', ⟨fuel, 0, hcall'⟩, call_alike h hs hcall hcall'⟩
    obtain ⟨as', s', hrun', -, -⟩ := Trace.simulate hfollow hrun hstart
    exact ⟨as', s', hrun'⟩
  · have hboth : ∀ s s' c a a' t t', Beside R s s' → SessionStep p s c a t →
        SessionStep p' s' c a' t' → a.Alike a' ∧ Beside R t t' := by
      rintro s s' c a a' t t' hs ⟨fuel, uninit, hcall⟩ ⟨fuel', uninit', hcall'⟩
      exact call_alike h hs hcall hcall'
    exact fun as' s' hrun' => Trace.agree hboth hrun hrun' hstart

end

/-- A program with the default cartridge and an allocator that always has a block, whose tables are
filled with `memory`. -/
def stdProgram (memory : Vm.TableMemory) : Program Unit where
  callback := fun _ _ _ e => (true, e)
  load := fun type props e => (Vm.cartridgeLoadDefault type props, e)
  sizes := ⟨96, 48, 40, 4, 44, 88⟩
  tableMemory := fun _ => memory
  properties := fun _ => ⟨0, 0, 0, 0, 0, fun _ => 0⟩
  nodeMemory := fun _ => (startOn ifSource).ast.nodes
  compilerMemory := fun _ => freshCompiler

/-- Other tables than `filledMemory`. -/
def zeroMemory : Vm.TableMemory := { filledMemory with data := fun _ => 0 }

/-- Two programs on the standard host agree, whatever was in their memory. -/
theorem agree_stdProgram (memory memory' : Vm.TableMemory) :
    Program.Agree (fun _ _ => True) (stdProgram memory) (stdProgram memory') where
  sizes := rfl
  callback := fun _ _ _ _ _ _ => ⟨rfl, trivial⟩
  load := fun _ _ _ => ⟨rfl, fun _ => ⟨rfl, rfl, rfl, rfl⟩, trivial⟩

/-- An archetype, and a compilation on a compiler of sixteen nodes. -/
def ifCalls : List Call :=
  [.vmInit, .createArchetype 0 "player".toList (fun _ => ⟨[], .int, 0⟩) 1, .compilerInit 0 16,
    .compile 0 ifSource]

/-- The session of `ifCalls` comes to its end. -/
theorem sessionRun_ifCalls :
    ∃ as s, SessionRun (stdProgram filledMemory) ifCalls as (sessionStart ()) s := by
  have hsome :
      (runCalls (stdProgram filledMemory) 12 0 ifCalls (sessionStart ())).isSome = true := by
    decide +kernel
  obtain ⟨x, hx⟩ := Option.isSome_iff_exists.mp hsome
  exact ⟨_, _, sessionRun_of_runCalls hx⟩

/-- The session of `ifCalls` on another memory answers alike. -/
theorem session_alike_ifCalls :
    ∃ as as' s', SessionRun (stdProgram zeroMemory) ifCalls as' (sessionStart ()) s' ∧
      List.Forall₂ Answer.Alike as as' := by
  obtain ⟨as, s, hrun⟩ := sessionRun_ifCalls
  obtain ⟨⟨as', s', hrun'⟩, hall⟩ :=
    session_alike (agree_stdProgram filledMemory zeroMemory) trivial hrun
  exact ⟨as, as', s', hrun', hall as' s' hrun'⟩

end Nucleus.Proofs
