import Nucleus.Proofs.Acceptance
import Nucleus.Proofs.Capacity
import Nucleus.Proofs.Exits
import Nucleus.Proofs.Tables
import Nucleus.Proofs.TwinResolve

/-!
# `Nucleus.Proofs.Reuse`: a reused compiler behaves like a fresh one

`Used K c`: the compiler `c` was made with the capacity `K`, and any number of calls of
`nulang_compile` came to an end on it. What these calls leave in the arena, and in the error data,
makes no difference to the next call (`compile_reused`): clearing the arena brings back the node of
the module, and every other node that a pass reads was stored to by the production that added it.
-/

set_option autoImplicit false

namespace Nucleus.Lang

open Nucleus.Vm (TableManager)

/-- A compiler of the capacity `K` between two calls. -/
structure Compiler.InOrder (K : UInt32) (c : Compiler) : Prop where
  root : c.ast.root = 0
  capacity : c.ast.nodeCapacity = K
  type : (c.ast.nodes 0).type = .astModule

/-- A compiler of the capacity `K` that was used any number of times, with any result. -/
inductive Used (K : UInt32) : Compiler → Prop where
  | init (memory : NodeId → Node) (source : Source) (errorData : ErrorData) :
      Used K (compilerInit K memory source errorData)
  | compile {c c' : Compiler} {vm : TableManager} {fuel : Nat} {uninit : NodeId} {source : Source}
      {status : Status} :
      Used K c → compile vm fuel uninit c source = some (status, c') → Used K c'

end Nucleus.Lang

namespace Nucleus.Proofs

open Nucleus.Lib
open Nucleus.Lib.Prog
open Nucleus.Lang
open Nucleus.Spec
open Nucleus.Vm (TableManager)

/-! ### Two runs of a pass -/

section
variable {L L' : Type} [TokenSource L] [LawfulTokenSource L] [TokenSource L']
  [LawfulTokenSource L'] {P : Pair L L'} {k : Nat}

/-- Two runs of a pass end together. -/
theorem Pass.Runs.outcome {σ : Type} {pass : Pass σ} {m m' : Prog σ Error Unit} {s t : σ}
    (h : pass.Runs P k m m' (some s) t fun _ => pass.At P k) :
    (m s = none ∧ m' t = none) ∨
    (∃ e s' t', m s = some (.error e, s') ∧ m' t = some (.error e, t') ∧ pass.Failed P k s' t') ∨
    ∃ s' t', m s = some (.ok (), s') ∧ m' t = some (.ok (), t') ∧ pass.Beside P k s' t' := by
  -- a pass takes no new node, so its shadow never stops by itself
  have hkeeps : ∀ {r : Except Error Unit} {o' : Option σ},
      Follows .outOfNode (fun _ => False) m (some s) (some r) o' →
        ∃ s', m s = some (r, s') ∧ o' = some s' := by
    intro r o' hfollows
    exact hfollows.of_some.resolve_left fun ⟨_, _, hfalse, _⟩ => hfalse
  rcases hm : m' t with _ | ⟨e | ⟨⟩, t'⟩
  · rcases (h.ends hm).of_none with ⟨_, -, hfalse⟩ | hnone
    · exact hfalse.elim
    · exact Or.inl ⟨hnone, rfl⟩
  · obtain ⟨o', hfollows, s', rfl, hfailed⟩ := h.fails hm
    obtain ⟨s'', hrun, heq⟩ := hkeeps hfollows
    cases heq
    exact Or.inr (Or.inl ⟨e, s', t', hrun, rfl, hfailed⟩)
  · obtain ⟨o', hfollows, s', rfl, hbeside⟩ := h.returns hm
    obtain ⟨s'', hrun, heq⟩ := hkeeps hfollows
    cases heq
    exact Or.inr (Or.inr ⟨s', t', hrun, rfl, hbeside⟩)

/-- Where two runs of both passes are when they end. -/
structure Analyzed (P : Pair L L') (k : Nat) (r : Except Error Unit) (a b : Ast)
    (d d' : ErrorData) : Prop where
  alike : Alike P k a b
  span : ∀ e, r = .error e → d.span = d'.span ∧ P.InSource d'.span

/-- `nulang__analyze` on two arenas that are alike. -/
theorem analyze_twins {a b : Ast} (h : Alike P k a b) (vm : TableManager) (fuel : Nat)
    (d d' : ErrorData) :
    (analyze vm fuel a d = none ∧ analyze vm fuel b d' = none) ∨
    ∃ r a₁ b₁ d₁ d₁', analyze vm fuel a d = some (r, a₁, d₁) ∧
      analyze vm fuel b d' = some (r, b₁, d₁') ∧ Analyzed P k r a₁ b₁ d₁ d₁' := by
  unfold analyze
  have hsymbols := runs_resolveSymbols (P := P) (k := k) fuel (o := some ⟨a, [], d⟩)
    (t := ⟨b, [], d'⟩) ⟨_, rfl, h, rfl⟩
  rcases Pass.Runs.outcome hsymbols with ⟨hs, ht⟩ | ⟨e, s, t, hs, ht, hfail⟩ | ⟨s, t, hs, ht, hok⟩
  · rw [hs, ht]
    exact Or.inl ⟨rfl, rfl⟩
  · rw [hs, ht]
    exact Or.inr ⟨_, _, _, _, _, rfl, rfl, hfail.alike, fun _ _ => ⟨hfail.span, hfail.inSource⟩⟩
  · rw [hs, ht]
    -- the second pass starts where both runs of the first one ended
    have harchetypes := runs_resolveArchetypes (P := P) (k := k) vm fuel
      (o := some ⟨s.ast, s.error⟩) (t := ⟨t.ast, t.error⟩) ⟨_, rfl, hok.alike, trivial⟩
    rcases Pass.Runs.outcome harchetypes with
      ⟨hs', ht'⟩ | ⟨e, s', t', hs', ht', hfail⟩ | ⟨s', t', hs', ht', hok'⟩
    · simp only [hs', ht']
      exact Or.inl ⟨trivial, trivial⟩
    · simp only [hs', ht']
      exact Or.inr ⟨_, _, _, _, _, rfl, rfl, hfail.alike, fun _ _ => ⟨hfail.span, hfail.inSource⟩⟩
    · simp only [hs', ht']
      exact Or.inr ⟨_, _, _, _, _, rfl, rfl, hok'.alike, nofun⟩

end

/-! ### Two calls of `nulang_compile` -/

section
variable {source : Source} {a b : Ast} {fuel : Nat} {error error' : ErrorData}
  {uninit uninit' : NodeId}

/-- Two parses with the same capacity end together. -/
theorem parse_twins (source : Source) (ha : a.Blank) (hb : b.Blank)
    (hcap : a.nodeCapacity = b.nodeCapacity) (fuel : Nat) (error error' : ErrorData)
    (uninit uninit' : NodeId) :
    (parse fuel (parserStart source a error uninit) = none ∧
      parse fuel (parserStart source b error' uninit') = none) ∨
    ∃ r p q, parse fuel (parserStart source a error uninit) = some (r, p) ∧
      parse fuel (parserStart source b error' uninit') = some (r, q) ∧
      Pair.Finished (lexerPair source False a b (by rw [hcap])) r (some p) q := by
  have hle : a.nodeCapacity.toNat ≤ b.nodeCapacity.toNat := by rw [hcap]
  have hgood : Good (lexerPair source False a b hle) noNode []
      (some (parserStart source a error uninit)) (parserStart source b error' uninit') :=
    good_parserStart ha hb uninit uninit' False.elim
  rcases hmain : parse fuel (parserStart source b error' uninit') with _ | ⟨r, q⟩
  · rcases parse_follows_none hgood hmain with ⟨p, hstop⟩ | hnone
    · -- the other way round, a run that stops leads the second one to an end
      have hgood' : Good (lexerPair source False b a (by rw [hcap])) noNode []
          (some (parserStart source b error' uninit')) (parserStart source a error uninit) :=
        good_parserStart hb ha uninit' uninit False.elim
      obtain ⟨-, ⟨_, hrun, -⟩ | ⟨_, hrun, -⟩⟩ := parse_follows hgood' hstop
      all_goals
        rw [hmain] at hrun
        cases hrun
    · exact Or.inl ⟨hnone, rfl⟩
  · obtain ⟨hroom, ⟨_, -, -, hlt⟩ | ⟨p, hrun, hfin⟩⟩ := parse_follows hgood hmain
    · have hfull : a.nodeCapacity.toNat < q.ast.nodeCount := hlt
      have hle : q.ast.nodeCount ≤ b.nodeCapacity.toNat := hroom.le
      -- the two arenas are equally large, so neither is full alone
      rw [hcap] at hfull
      exact absurd hle (Nat.not_le.mpr hfull)
    · exact Or.inr ⟨r, p, q, hrun, rfl, hfin⟩

end

section
variable {K : UInt32} {c c' d : Compiler} {source : Source}

/-- Clearing the arena brings back the node of the module. -/
theorem InOrder.blank (h : c.InOrder K) (hK : 0 < K.toNat) :
    (compilerPrepare c source).ast.Blank where
  toCleared := astClear_cleared h.root (by rw [h.capacity]; exact hK)
  type := by
    show ((c.ast.modifyNode 0 Ast.unlinked).nodes 0).type = .astModule
    rw [Ast.modifyNode_nodes_self]
    exact h.type

/-- Parsers in the relation of the twins have trees that are alike. -/
theorem alike_of_good {L L' : Type} [TokenSource L] [LawfulTokenSource L] [TokenSource L']
    [LawfulTokenSource L'] {P : Pair L L'} {ids : List NodeId} {p : Parser L} {q : Parser L'}
    (h : Good P noNode ids (some p) q) : Alike P q.ast.nodeCount p.ast q.ast :=
  ⟨(h.beside p rfl).room, h.room, (h.beside p rfl).twins, rfl⟩

/-- An arena with room belongs to a compiler in order. -/
theorem inOrder_of_room {limit : UInt32} {memory : NodeId → Node} {st : Option Error}
    {errorData : ErrorData} {a : Ast} (h : a.Room limit memory) (hlimit : limit = K) :
    Compiler.InOrder K ⟨a, source, st, errorData⟩ :=
  ⟨h.root, h.capacity.trans hlimit, h.type⟩

/-- The parser of `nulang_compile`. -/
def compilerStart (c : Compiler) (source : Source) (uninit : NodeId) : Parser Lexer :=
  parserStart source (compilerPrepare c source).ast c.errorData uninit

section
variable {vm : TableManager} {fuel : Nat} {uninit : NodeId}

/-- `nu_nulang_compile` is its passes one after the other, from the prepared compiler. -/
theorem compile_eq : compile vm fuel uninit c source =
    match parse fuel (compilerStart c source uninit) with
    | none => none
    | some (.error e, p) =>
        some (compilerResult (compilerPrepare c source) (.error e) p.ast p.error)
    | some (.ok _, p) => (analyze vm fuel p.ast p.error).map fun x =>
        compilerResult (compilerPrepare c source) x.1 x.2.1 x.2.2 := by
  show (match parse fuel (compilerStart c source uninit) with
    | none => none
    | some (.error e, p) =>
        some (compilerResult (compilerPrepare c source) (.error e) p.ast p.error)
    | some (.ok _, p) => _) = _
  rcases parse fuel (compilerStart c source uninit) with _ | ⟨e | ⟨⟩, p⟩
  · rfl
  · rfl
  · dsimp only
    rcases analyze vm fuel p.ast p.error with _ | ⟨r, a, d⟩ <;> rfl

end

/-- The parser of `nulang_compile` on a compiler in order. -/
theorem at_compilerStart (hK : 0 < K.toNat) (hc : c.InOrder K) (source : Source) (uninit : NodeId) :
    At (compilerStart c source uninit) (resultsOf source) (compilerPrepare c source).ast ∧
      (compilerPrepare c source).ast.free = K.toNat - 1 := by
  refine ⟨at_parserStart _ _ _ _, ?_⟩
  have hblank : (compilerPrepare c source).ast.Blank := InOrder.blank hc hK
  have hfree := hblank.toCleared.free_eq
  rw [show (compilerPrepare c source).ast.nodeCapacity = K from hc.capacity] at hfree
  omega

/-- Where two calls of `nulang_compile` are when they end with `status`: with the same error code,
and with the same tree or the same span. The span is left open when the parse ends where no span is
stored. -/
structure CompiledAlike (K : UInt32) (source : Source) (status : Status) (d d' : Compiler) :
    Prop where
  inOrder : d.InOrder K
  inOrder' : d'.InOrder K
  error : d.error = d'.error
  same : status = .success → d.ast.Same d'.ast
  span : status = .failure → ¬ EndsBlind (resultsOf source) (K.toNat - 1) →
    d.errorData.span = d'.errorData.span ∧ Stands source d'.errorData.span

/-- Arenas that are alike are the same for a reader. -/
theorem Alike.same {L L' : Type} [TokenSource L] [LawfulTokenSource L] [TokenSource L']
    [LawfulTokenSource L'] {P : Pair L L'} {k : Nat} {a b : Ast} (h : Alike P k a b) :
    a.Same b where
  root := h.room.root.trans h.room'.root.symm
  nodeCount := h.twins.count
  nodes := fun i hi => (h.twins.nodes i (h.twins.count ▸ hi) not_false).toSame

/-- Two calls of `nulang_compile` on compilers of the same capacity end together. -/
theorem compile_twins (hK : 0 < K.toNat) (hc : c.InOrder K) (hc' : c'.InOrder K)
    (source : Source) (vm : TableManager) (fuel : Nat) (uninit uninit' : NodeId) :
    (compile vm fuel uninit c source = none ∧ compile vm fuel uninit' c' source = none) ∨
    ∃ status d d', compile vm fuel uninit c source = some (status, d) ∧
      compile vm fuel uninit' c' source = some (status, d') ∧
      CompiledAlike K source status d d' := by
  have hcap : (compilerPrepare c source).ast.nodeCapacity = K := hc.capacity
  have hcap' : (compilerPrepare c' source).ast.nodeCapacity = K := hc'.capacity
  rw [compile_eq, compile_eq]
  rcases parse_twins source (InOrder.blank hc hK) (InOrder.blank hc' hK)
    (hcap.trans hcap'.symm) fuel c.errorData c'.errorData uninit uninit' with
    ⟨hnone, hnone'⟩ | ⟨r, p, q, hrun, hrun', hfin⟩
  · rw [show parse fuel (compilerStart c source uninit) = none from hnone,
      show parse fuel (compilerStart c' source uninit') = none from hnone']
    exact Or.inl ⟨rfl, rfl⟩
  rw [show parse fuel (compilerStart c source uninit) = some (r, p) from hrun,
    show parse fuel (compilerStart c' source uninit') = some (r, q) from hrun']
  rcases r with e | ⟨⟩
  · have hfailed : Pair.Failed _ e (some p) q := hfin
    refine Or.inr ⟨.failure, _, _, rfl, rfl, ?_, ?_, rfl, nofun, fun _ hblind => ?_⟩
    · exact inOrder_of_room (hfailed.stopped p rfl) hcap
    · exact inOrder_of_room hfailed.room hcap'
    · -- the results and the free nodes say where both parsers stop
      obtain ⟨hat, hfree⟩ := at_compilerStart hK hc source uninit
      obtain ⟨hat', hfree'⟩ := at_compilerStart hK hc' source uninit'
      rw [← hfree'] at hblind
      exact ⟨span_unique hat hat' (hfree.trans hfree'.symm) hrun hrun' hblind,
        stands_of_parse hat' hrun' hblind⟩
  · have hgood : Good _ noNode [] (some p) q := hfin
    -- both parses succeed and leave the same nodes
    have halike := alike_of_good hgood
    rcases analyze_twins halike vm fuel p.error q.error with
      ⟨hnone, hnone'⟩ | ⟨r, a, b, d, d', hrun, hrun', hdone⟩
    · simp only [hnone, hnone']
      exact Or.inl ⟨rfl, rfl⟩
    · simp only [hrun, hrun']
      refine Or.inr ?_
      rcases r with e | ⟨⟩
      · exact ⟨.failure, _, _, rfl, rfl, inOrder_of_room hdone.alike.room hcap,
          inOrder_of_room hdone.alike.room' hcap', rfl, nofun, fun _ _ => hdone.span e rfl⟩
      · exact ⟨.success, _, _, rfl, rfl, inOrder_of_room hdone.alike.room hcap,
          inOrder_of_room hdone.alike.room' hcap', rfl, fun _ => hdone.alike.same, nofun⟩

/-- A used compiler is in order again. -/
theorem inOrder_of_used (hK : 0 < K.toNat) (h : Used K c) : c.InOrder K := by
  induction h with
  | init memory source errorData => exact ⟨rfl, rfl, rfl⟩
  | @compile c c' vm fuel uninit source status _ hrun ih =>
      rcases compile_twins hK ih ih source vm fuel uninit uninit with
        ⟨hnone, -⟩ | ⟨_, d, _, hrun', -, halike⟩
      · rw [hrun] at hnone
        cases hnone
      · rw [hrun] at hrun'
        cases hrun'
        exact halike.inOrder

/-- A reused compiler behaves like a fresh one. Whatever calls of `nulang_compile` ended on the
compiler `c` before, the next call ends if it ends on a compiler that was just made, in any memory;
and then with the same status, the same error code and, on success, the same tree. -/
theorem compile_reused (hK : 0 < K.toNat) (h : Used K c) (vm : TableManager) (fuel : Nat)
    (source source' : Source) (uninit uninit' : NodeId) (memory : NodeId → Node)
    (errorData : ErrorData) :
    (compile vm fuel uninit c source = none ↔
      compile vm fuel uninit' (compilerInit K memory source' errorData) source = none) ∧
    ∀ status d, compile vm fuel uninit c source = some (status, d) →
      ∃ d', compile vm fuel uninit' (compilerInit K memory source' errorData) source =
          some (status, d') ∧
        d.error = d'.error ∧ (status = .success → d.ast.Same d'.ast) := by
  have hfresh := inOrder_of_used hK (Used.init (K := K) memory source' errorData)
  rcases compile_twins hK (inOrder_of_used hK h) hfresh source vm fuel uninit uninit' with
    ⟨hnone, hnone'⟩ | ⟨status, d, d', hrun, hrun', halike⟩
  · refine ⟨iff_of_true hnone hnone', fun status d hrun => ?_⟩
    rw [hnone] at hrun
    cases hrun
  · rw [hrun, hrun']
    refine ⟨iff_of_false nofun nofun, fun status' e heq => ?_⟩
    cases heq
    exact ⟨d', rfl, halike.error, halike.same⟩

end

/-- A VM without archetypes. -/
def emptyTables : TableManager := Nucleus.Vm.tableManagerInit 1 1 1 filledMemory

/-- A compiler of sixteen nodes in zeroed memory. -/
def freshCompiler : Compiler :=
  compilerInit 16 (startOn ifSource).ast.nodes ifSource (startOn ifSource).error

/-- `applySource` compiles. -/
theorem compile_applySource :
    ∃ c, compile emptyTables 20 0 freshCompiler applySource = some (.success, c) := by
  have hresult : (compile emptyTables 20 0 freshCompiler applySource).map Prod.fst =
      some .success := by decide +kernel
  obtain ⟨⟨_, c⟩, hrun, rfl⟩ := Option.map_eq_some_iff.mp hresult
  exact ⟨c, hrun⟩

/-- The same source for the second time compiles to the same tree. -/
theorem compile_reused_applySource :
    ∃ c, Used 16 c ∧ ∃ d d', compile emptyTables 20 0 c applySource = some (.success, d) ∧
      compile emptyTables 20 0 freshCompiler applySource = some (.success, d') ∧
      d.ast.Same d'.ast := by
  obtain ⟨c, hrun⟩ := compile_applySource
  have hused : Used 16 c := .compile (.init (startOn ifSource).ast.nodes ifSource
    (startOn ifSource).error) hrun
  obtain ⟨hends, hsame⟩ := compile_reused (by decide) hused emptyTables 20 applySource ifSource 0 0
    (startOn ifSource).ast.nodes (startOn ifSource).error
  have hne : compile emptyTables 20 0 c applySource ≠ none := by
    intro hnone
    have hnone' : compile emptyTables 20 0 freshCompiler applySource = none := hends.mp hnone
    rw [hrun] at hnone'
    cases hnone'
  obtain ⟨⟨status, d⟩, hrun'⟩ := Option.ne_none_iff_exists'.mp hne
  obtain ⟨d', hfresh, -, htree⟩ := hsame status d hrun'
  -- the first call has succeeded, and so has this one
  obtain rfl : status = .success :=
    congrArg Prod.fst (Option.some.inj (hfresh.symm.trans hrun))
  exact ⟨c, hused, d, d', hrun', hfresh, htree rfl⟩

end Nucleus.Proofs
