import Nucleus.Proofs.Fuel
import Nucleus.Proofs.Reuse

/-!
# `Nucleus.Proofs.ErrorSpans`: the position of a failure

A call of `nulang_compile` that fails reports a position through the span in the error data. Every
error of the parser and of the passes stores one, with two exceptions: `nulang__add_node` in a full
arena, and the lexer at a `!` that no `=` follows. `reportsPosition_iff`: the span is a position of
the source, whatever was in the error data before, unless the parser comes to one of these exits and
has not dropped an error before that stored its span.
-/

set_option autoImplicit false

namespace Nucleus.Lang

open Nucleus.Vm (TableManager)

/-- Every call of `nulang_compile` on `source` that fails, on a compiler of the capacity `K`,
reports a position of the source, which does not depend on what was in the error data before. -/
def ReportsPosition (K : UInt32) (source : Source) : Prop :=
  ∀ (c d : Compiler) (vm : TableManager) (fuel : Nat) (uninit : NodeId), c.InOrder K →
    compile vm fuel uninit c source = some (.failure, d) →
      d.errorData.span.start.index.toNat ≤ source.val.length ∧
      ∀ errorData : ErrorData, ∃ d',
        compile vm fuel uninit { c with errorData } source = some (.failure, d') ∧
          d'.errorData.span = d.errorData.span

end Nucleus.Lang

namespace Nucleus.Proofs

open Nucleus.Lang
open Nucleus.Spec
open Nucleus.Vm (TableManager)

section
variable {K : UInt32} {source : Source} {c d : Compiler} {vm : TableManager} {fuel : Nat}
  {uninit : NodeId} {status : Status}

/-- At a blind exit the call fails, and leaves the span as it was. -/
theorem compile_of_endsBlind (hK : 0 < K.toNat) (hc : c.InOrder K)
    (hblind : EndsBlind (resultsOf source) (K.toNat - 1)) (vm : TableManager) (uninit : NodeId) :
    (∃ fuel d, compile vm fuel uninit c source = some (.failure, d)) ∧
      ∀ {fuel : Nat} {status : Status} {d : Compiler},
        compile vm fuel uninit c source = some (status, d) →
          d.errorData.span = c.errorData.span := by
  obtain ⟨hat, hfree⟩ := at_compilerStart hK hc source uninit
  rw [← hfree] at hblind
  obtain ⟨fuel₀, e, p, hparse, hspan, -⟩ := parse_of_endsBlind hblind hat
  refine ⟨⟨fuel₀, _, by rw [compile_eq, hparse]; rfl⟩, fun {fuel status d} hrun => ?_⟩
  rw [compile_eq] at hrun
  rcases hparse' : parse fuel (compilerStart c source uninit) with _ | r
  · rw [hparse'] at hrun
    cases hrun
  · -- a parse ends in one way
    cases parse_unique hparse hparse'
    rw [hparse'] at hrun
    cases hrun
    exact hspan

/-- At a blind exit no position is reported. -/
theorem not_reportsPosition_of_endsBlind (hK : 0 < K.toNat)
    (hblind : EndsBlind (resultsOf source) (K.toNat - 1)) : ¬ ReportsPosition K source := by
  intro hreports
  let start : Compiler := compilerInit K (startOn source).ast.nodes source (startOn source).error
  have hstart : start.InOrder K := ⟨rfl, rfl, rfl⟩
  -- other error data, with another position
  let other : ErrorData := { start.errorData with
    span := { start.errorData.span with
      start := { start.errorData.span.start with
        index := start.errorData.span.start.index + 1 } } }
  have hother : Compiler.InOrder K { start with errorData := other } := ⟨rfl, rfl, rfl⟩
  obtain ⟨⟨fuel, d, hrun⟩, hkeeps⟩ := compile_of_endsBlind hK hstart hblind emptyTables 0
  obtain ⟨d', hrun', hsame⟩ := (hreports _ d _ fuel 0 hstart hrun).2 other
  rw [hkeeps hrun, (compile_of_endsBlind hK hother hblind emptyTables 0).2 hrun'] at hsame
  have hindex : start.errorData.span.start.index + 1 = start.errorData.span.start.index :=
    congrArg (fun s : Span => s.start.index) hsame
  simp at hindex

/-- Every failure reports a position of the source, unless the parser comes to an exit that stores
none and has dropped no error before that left one. -/
theorem reportsPosition_iff (hK : 0 < K.toNat) :
    ReportsPosition K source ↔ ¬ EndsBlind (resultsOf source) (K.toNat - 1) := by
  refine ⟨fun hreports hblind => not_reportsPosition_of_endsBlind hK hblind hreports, fun h => ?_⟩
  intro c d vm fuel uninit hc hrun
  -- the call beside the same call on any other error data
  have hpair : ∀ errorData : ErrorData, ∃ d',
      compile vm fuel uninit { c with errorData } source = some (.failure, d') ∧
        d'.errorData.span = d.errorData.span ∧ Stands source d.errorData.span := by
    intro errorData
    have hc' : Compiler.InOrder K { c with errorData } := ⟨hc.root, hc.capacity, hc.type⟩
    rcases compile_twins hK hc' hc source vm fuel uninit uninit with
      ⟨-, hnone⟩ | ⟨status, d', d'', hrun', hmain, halike⟩
    · rw [hrun] at hnone
      cases hnone
    · rw [hrun] at hmain
      cases hmain
      exact ⟨d', hrun', halike.span rfl h⟩
  obtain ⟨-, -, -, hstands⟩ := hpair c.errorData
  refine ⟨Stands.inside hstands, fun errorData => ?_⟩
  obtain ⟨d', hrun', hspan, -⟩ := hpair errorData
  exact ⟨d', hrun', hspan⟩

end

/-- The source `b`. -/
def identSource : Source := ⟨['b'], by decide⟩

/-- The parser stops at the end behind the identifier, which is no statement. -/
theorem not_endsBlind_identSource : ¬ EndsBlind (resultsOf identSource) 15 := by
  intro hblind
  have hat : At (startOn identSource) (resultsOf identSource) (startOn identSource).ast :=
    at_parserStart identSource _ _ _
  have hresult : (parse 12 (startOn identSource)).map Prod.fst =
      some (.error .identifierAsStatement) := by decide +kernel
  obtain ⟨⟨r, p⟩, hrun, hr⟩ := Option.map_eq_some_iff.mp hresult
  obtain rfl : r = .error .identifierAsStatement := hr
  rcases unplaced_of_endsBlind hblind hat hrun with he | he
  · cases he
  · cases he

/-- Every failure on `b` reports a position of it. -/
theorem reportsPosition_identSource : ReportsPosition 16 identSource :=
  (reportsPosition_iff (by decide)).mpr not_endsBlind_identSource

/-! ### The two exits -/

/-- The source `!`. -/
def bangSource : Source := ⟨['!'], by decide⟩

/-- The source `return b`. -/
def returnSource : Source := ⟨['r', 'e', 't', 'u', 'r', 'n', ' ', 'b'], by decide⟩

/-- Error data that an earlier call on another source left: the position 99. -/
def staleError : ErrorData :=
  ⟨⟨⟨0, 0, 99⟩, ⟨0, 0, 99⟩⟩, .tokenEof, .tokenEof⟩

/-- A new compiler of the capacity `K` with stale error data. -/
def staleCompiler (K : UInt32) : Compiler :=
  compilerInit K (startOn ifSource).ast.nodes bangSource staleError

/-- A lone `!`, and a full arena: the call fails, and the span is the stale one. -/
theorem not_reportsPosition :
    ¬ ReportsPosition 16 bangSource ∧ ¬ ReportsPosition 1 returnSource := by
  have hstale : ∀ {K : UInt32} {source : Source},
      (compile emptyTables 12 0 (staleCompiler K) source).map (fun x =>
        (x.1, x.2.errorData.span.start.index)) = some (.failure, 99) →
      source.val.length < 99 → ¬ ReportsPosition K source := by
    intro K source hrun hlt hreports
    obtain ⟨⟨status, d⟩, hrun, heq⟩ := Option.map_eq_some_iff.mp hrun
    obtain ⟨rfl, hindex⟩ := Prod.mk.inj heq
    obtain ⟨hle, -⟩ := hreports _ d emptyTables 12 0 ⟨rfl, rfl, rfl⟩ hrun
    rw [show d.errorData.span.start.index = 99 from hindex] at hle
    exact absurd hle (Nat.not_le.mpr hlt)
  exact ⟨hstale (by decide +kernel) (by decide), hstale (by decide +kernel) (by decide)⟩

end Nucleus.Proofs
