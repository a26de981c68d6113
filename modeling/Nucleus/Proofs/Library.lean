import Nucleus.Proofs.Session

/-!
# `Nucleus.Proofs.Library`: the library as an abstract machine

What the library is for, with nothing of how it does it. A virtual machine is the list of the
archetypes that were created on it (`Registry`), and a compiler is a capacity. `Library.Step` says
what each call answers: a creation the next handle, as long as there is room, and a compilation the
one tree of the source, when the source is a correct module that fits.

Every run of the code is a run of this machine with the same answers (`session_refines`). There is
no arena in it, no table, no link and no fuel.
-/

set_option autoImplicit false

namespace Nucleus.Proofs

open Nucleus.Lib
open Nucleus.Lang
open Nucleus.Spec
open Nucleus.Vm (NuVm FieldInfo vmInit)

/-! ### The specification -/

/-- A virtual machine: its capacities, and the archetypes that were created on it, in order. -/
structure Registry where
  archetypes : UInt16
  fields : UInt16
  created : List CreateCall

/-- There is room for one more archetype. -/
structure Registry.Room (r : Registry) (c : CreateCall) : Prop where
  archetypes : r.created.length + 1 ≤ r.archetypes.toNat
  fields : fieldsOf r.created + c.fieldCount.toNat ≤ r.fields.toNat

/-- The library: its virtual machines, and its compilers with the places of their machines. -/
structure Library where
  registries : List Registry
  compilers : List (Nat × UInt32)

/-- The tree of a source: the module that the grammar derives, with the newest handle of each
archetype name. The module fits, and it is correct. -/
def Accepts (K : UInt32) (created : List CreateCall) (source : Source) (s : Syn) : Prop :=
  ∃ m, DerivesModule (resultsOf source) m ∧ m.size + 1 ≤ K.toNat ∧
    StaticallyCorrect maxSymbols (Registered created) m ∧
    s = m.map (Kind.resolve fun u => newestHandle u created.reverse)

/-- A call with its answer. The program decides about the memory, and its cartridge about the
capacities of a virtual machine. -/
inductive Library.Step : Library → Call → Answer → Library → Prop where
  | vmInit (l : Library) (archetypes fields : UInt16) :
      Step l .vmInit (.vmInit none)
        { l with registries := l.registries ++ [⟨archetypes, fields, []⟩] }
  | vmInitFailed (l : Library) (error : Vm.Error) : Step l .vmInit (.vmInit (some error)) l
  | create {l : Library} {vm : Nat} {r : Registry} {c : CreateCall} :
      l.registries[vm]? = some r → r.Room c →
      Step l (.createArchetype vm c.name c.fields c.fieldCount)
        (.createArchetype none (UInt16.ofNat (r.created.length + 1)))
        { l with registries := l.registries.set vm { r with created := r.created ++ [c] } }
  | createFull {l : Library} {vm : Nat} {r : Registry} {c : CreateCall} :
      l.registries[vm]? = some r → ¬ r.Room c →
      Step l (.createArchetype vm c.name c.fields c.fieldCount)
        (.createArchetype (some .outOfMemory) archetypeNull) l
  | compilerInit {l : Library} {vm : Nat} {K : UInt64} :
      vm < l.registries.length → 0 < K.toUInt32.toNat →
      Step l (.compilerInit vm K) (.compilerInit .success none)
        { l with compilers := l.compilers ++ [(vm, K.toUInt32)] }
  | compilerInitFailed {l : Library} {vm : Nat} {K : UInt64} : vm < l.registries.length →
      Step l (.compilerInit vm K) (.compilerInit .failure (some .outOfMemory)) l
  | compile {l : Library} {k vm : Nat} {K : UInt32} {r : Registry} {source : Source}
      {d : Compiler} : l.compilers[k]? = some (vm, K) → l.registries[vm]? = some r →
      Accepts K r.created source d.ast.syntaxOf → d.error = none →
      Step l (.compile k source) (.compile .success d) l
  | compileFailed {l : Library} {k vm : Nat} {K : UInt32} {r : Registry} {source : Source}
      {d : Compiler} : l.compilers[k]? = some (vm, K) → l.registries[vm]? = some r →
      (∀ s, ¬ Accepts K r.created source s) → d.error ≠ none →
      Step l (.compile k source) (.compile .failure d) l

/-! ### The refinement -/

/-- The table manager holds the registry. -/
structure Holds (v : NuVm) (r : Registry) : Prop where
  registry : IsRegistry v.tables r.created
  archetypes : v.tables.archetypeCapacity = r.archetypes
  fields : v.tables.fieldCapacity = r.fields

/-- The compiler has the capacity, and was used any number of times. -/
def Serves (c : Nat × Compiler) (k : Nat × UInt32) : Prop :=
  c.1 = k.1 ∧ 0 < k.2.toNat ∧ Used k.2 c.2

/-- The session implements the library. -/
structure Implements {E : Type} (s : Session E) (l : Library) : Prop where
  registries : List.Forall₂ Holds s.vms l.registries
  compilers : List.Forall₂ Serves s.compilers l.compilers

section
variable {v : NuVm} {r : Registry} {c : CreateCall}

/-- The tables are full for a creation when the library has no room for it. -/
theorem Holds.fullFor_iff (h : Holds v r) : FullFor v.tables c.fieldCount ↔ ¬ r.Room c := by
  have hcount := h.registry.count
  have hcover := h.registry.cover
  rw [FullFor, h.archetypes, h.fields, hcount, hcover]
  constructor
  · rintro hfull ⟨hroom, hroom'⟩
    omega
  · intro hroom
    by_contra hfull
    obtain ⟨harch, hfield⟩ := not_or.mp hfull
    exact hroom ⟨Nat.not_lt.mp harch, Nat.not_lt.mp hfield⟩

/-- Whether a tree is accepted is what `nulang_compile` decides. -/
theorem accepts_of_compile {K : UInt32} (hK : 0 < K.toNat) {c d : Compiler} (hc : Used K c)
    (hv : Holds v r) {fuel : Nat} {uninit : NodeId} {source : Source}
    (hrun : compile v.tables fuel uninit c source = some (.success, d)) :
    Accepts K r.created source d.ast.syntaxOf := by
  have hfind : handleOf v.tables = fun u => newestHandle u r.created.reverse :=
    funext hv.registry.handleOf_eq
  obtain ⟨m, hder, hsize, hcorrect, htree⟩ := correct_of_compile hK hc hv.registry hrun
  exact ⟨m, hder, hsize, hcorrect, hfind ▸ htree⟩

/-- What fails to compile is not accepted by the library. -/
theorem not_accepts_of_compile {K : UInt32} (hK : 0 < K.toNat) {c d : Compiler} (hc : Used K c)
    (hv : Holds v r) {fuel : Nat} {uninit : NodeId} {source : Source}
    (hrun : compile v.tables fuel uninit c source = some (.failure, d)) (s : Syn) :
    ¬ Accepts K r.created source s := by
  rintro ⟨m, hder, hsize, hcorrect, -⟩
  obtain ⟨fuel', d', hrun', -⟩ : ∃ fuel' d', compile v.tables fuel' uninit c source =
      some (.success, d') ∧ _ := compile_of_correct hK hc hv.registry hder hsize hcorrect
  have hmax := compile_mono (Nat.le_max_left fuel fuel') hrun
  rw [compile_mono (Nat.le_max_right fuel fuel') hrun'] at hmax
  cases hmax

end

section
variable {E : Type} {p : Program E} {s t : Session E} {l : Library} {a : Answer}

/-- A program agrees with itself. -/
theorem Program.agree_self (p : Program E) : Program.Agree Eq p p where
  sizes := rfl
  callback := by
    rintro e _ rfl size align usage
    exact ⟨rfl, rfl⟩
  load := by
    rintro e _ rfl
    exact ⟨rfl, fun _ => ⟨rfl, rfl, rfl, rfl⟩, rfl⟩

/-- `nu_vm_init` is a step of the library. -/
theorem vmInit_refines (hs : Implements s l) (h : callVmInit p s = some (a, t)) :
    ∃ l', l.Step .vmInit a l' ∧ Implements t l' := by
  have hinit := lockstep_vmInit (Program.agree_self p) s.program s.program rfl
  unfold callVmInit at h
  generalize vmInit p.toHost s.program = o at hinit h
  cases hinit with
  | none => cases h
  | error _ =>
      cases h
      exact ⟨l, .vmInitFailed l _, hs.registries, hs.compilers⟩
  | ok hv _ =>
      cases h
      exact ⟨_, .vmInit l _ _, List.rel_append hs.registries (.cons ⟨hv.registry, rfl, rfl⟩ .nil),
        hs.compilers⟩

/-- `nu_vm_create_archetype` is a step of the library: it answers with a handle when there is room.
-/
theorem createArchetype_refines (hs : Implements s l) {vm : Nat} {c : CreateCall}
    (h : callCreateArchetype s vm c.name c.fields c.fieldCount = some (a, t)) :
    ∃ l', l.Step (.createArchetype vm c.name c.fields c.fieldCount) a l' ∧ Implements t l' := by
  obtain ⟨v, hv, hcall⟩ := Option.map_eq_some_iff.mp h
  rcases forall₂_getElem? hs.registries vm with ⟨hnone, -⟩ | ⟨_, r, hv', hr, hholds⟩
  · rw [hv] at hnone
    cases hnone
  rw [hv] at hv'
  cases hv'
  -- a full pool fails and keeps the registry
  by_cases hfull : FullFor v.tables c.fieldCount
  · simp only [vmCreateArchetype_full hfull] at hcall
    cases hcall
    refine ⟨l, .createFull hr (hholds.fullFor_iff.mp hfull), ?_, hs.compilers⟩
    obtain ⟨hlt, hget⟩ := List.getElem?_eq_some_iff.mp hr
    have hset : l.registries.set vm r = l.registries := hget ▸ List.set_getElem_self hlt
    exact hset ▸ forall₂_set hs.registries vm hholds
  · obtain ⟨n, hcreate, hac, hfc⟩ := vmCreateArchetype_room hfull
    simp only [hcreate] at hcall
    cases hcall
    have hroom : r.Room c := by
      by_contra hno
      exact hfull (hholds.fullFor_iff.mpr hno)
    have hhandle : v.tables.archetypeCount + 1 = UInt16.ofNat (r.created.length + 1) := by
      rw [← hholds.registry.count, UInt16.ofNat_add, UInt16.ofNat_toNat]
      rfl
    rw [hhandle]
    refine ⟨_, .create hr hroom, forall₂_set hs.registries vm ?_, hs.compilers⟩
    exact ⟨(CreateRun.isRegistry hholds.registry (.ok c .refl hcreate)).1,
      hac.trans hholds.archetypes, hfc.trans hholds.fields⟩

/-- The allocation of an arena fails for one reason. -/
theorem error_of_astAlloc {K : UInt32} {e e' : E} {error : Lang.Error}
    (h : astAlloc p K e = some (.error error, e')) : error = .outOfMemory := by
  unfold astAlloc Vm.alloc at h
  split at h
  · cases h
  split at h
  · cases h
  · cases hblock : (p.callback (p.sizes.node * K.toNat) 16 .compiler e).1 with
    | true =>
        rw [Prog.bind_run_ok
          (show Vm.allocatorCallback p.toHost (p.sizes.node * K.toNat) 16 .compiler e =
            some (.ok true, _) by rw [Vm.allocatorCallback, hblock])] at h
        cases h
    | false =>
        rw [Prog.bind_run_ok
          (show Vm.allocatorCallback p.toHost (p.sizes.node * K.toNat) 16 .compiler e =
            some (.ok false, _) by rw [Vm.allocatorCallback, hblock])] at h
        cases h
        rfl

/-- `nu_nulang_compiler_init` is a step of the library. -/
theorem compilerInit_refines (hs : Implements s l) {vm : Nat} {K : UInt64}
    (h : callCompilerInit p s vm K = some (a, t)) :
    ∃ l', l.Step (.compilerInit vm K) a l' ∧ Implements t l' := by
  have hinit := lockstep_astAlloc (Program.agree_self p) K.toUInt32 s.program s.program rfl
  unfold callCompilerInit at h
  split at h
  · rename_i hlt
    rw [hs.registries.length_eq] at hlt
    generalize ho : astAlloc p K.toUInt32 s.program = o at hinit h
    cases hinit with
    | none => cases h
    | error _ =>
        cases h
        obtain rfl := error_of_astAlloc ho
        exact ⟨l, .compilerInitFailed hlt, hs.registries, hs.compilers⟩
    | ok ha _ =>
        -- the arena is new, whatever its memory holds
        obtain ⟨hpos, ⟨memory, rfl⟩, -⟩ := ha
        cases h
        exact ⟨_, .compilerInit hlt hpos, hs.registries, List.rel_append hs.compilers
          (.cons ⟨rfl, hpos, .init memory _ _⟩ .nil)⟩
  · cases h

/-- `nu_nulang_compile` is a step of the library: it succeeds for the modules that are accepted. -/
theorem compile_refines (hs : Implements s l) {fuel : Nat} {uninit : NodeId} {k : Nat}
    {source : Source} (h : callCompile fuel uninit s k source = some (a, t)) :
    ∃ l', l.Step (.compile k source) a l' ∧ Implements t l' := by
  obtain ⟨vm, c, v, status, d, hc, hv, hrun, heq⟩ := callCompile_eq_some.mp h
  rcases forall₂_getElem? hs.compilers k with ⟨hnone, -⟩ | ⟨_, ⟨vm', K⟩, hc', hk, hvm, hK, hused⟩
  · rw [hc] at hnone
    cases hnone
  rw [hc] at hc'
  cases hc'
  obtain rfl : vm = vm' := hvm
  rcases forall₂_getElem? hs.registries vm with ⟨hnone, -⟩ | ⟨_, r, hv', hr, hholds⟩
  · rw [hv] at hnone
    cases hnone
  rw [hv] at hv'
  cases hv'
  cases heq
  -- the compiler goes back to its place, with the same capacity
  have hset : l.compilers.set k (vm, K) = l.compilers := by
    obtain ⟨hlt, hget⟩ := List.getElem?_eq_some_iff.mp hk
    exact hget ▸ List.set_getElem_self hlt
  have hserves : Serves (vm, d) (vm, K) := ⟨rfl, hK, .compile hused hrun⟩
  have hafter : Implements { s with compilers := s.compilers.set k (vm, d) } l :=
    ⟨hs.registries, hset ▸ forall₂_set hs.compilers k hserves⟩
  refine ⟨l, ?_, hafter⟩
  rcases error_of_compile hrun with ⟨rfl, hnone⟩ | ⟨rfl, herror⟩
  · exact .compile hk hr (accepts_of_compile hK hused hholds hrun) hnone
  · exact .compileFailed hk hr (not_accepts_of_compile hK hused hholds hrun) herror

/-- A call is a step of the library. -/
theorem call_refines (hs : Implements s l) {c : Call} (h : SessionStep p s c a t) :
    ∃ l', l.Step c a l' ∧ Implements t l' := by
  obtain ⟨fuel, uninit, hcall⟩ := h
  cases c with
  | vmInit => exact vmInit_refines hs hcall
  | createArchetype vm name fields n =>
      exact createArchetype_refines (c := ⟨name, fields, n⟩) hs hcall
  | compilerInit vm K => exact compilerInit_refines hs hcall
  | compile k source => exact compile_refines hs hcall

end

end Nucleus.Proofs
