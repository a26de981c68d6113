import Nucleus.Proofs.Completions
import Nucleus.Proofs.Ending
import Nucleus.Proofs.Initialisers
import Nucleus.Proofs.ParserLanguage
import Nucleus.Proofs.Reuse

/-!
# `Nucleus.Proofs.FirstError`: the parser blames the first error

Where the parser stops, the machine of the table is blocked at the item that the error names
(`stopsAt_of_parse`). What the machine cannot go on with, no module goes on with, and what it has
taken is the beginning of a module. So the error of the parser is at the first item at which the
source is no longer the beginning of a module (`compile_blamesFirst`).

A statement that begins with an idle token keeps the parser in its loop: such a run does not end,
and says nothing.
-/

set_option autoImplicit false

namespace Nucleus.Proofs

open Nucleus.Lib
open Nucleus.Lib.Prog
open Nucleus.Lang
open Nucleus.Spec
open Nucleus.Vm (TableManager)

/-! ### The first error -/

/-- A parse that stops with an error, and not for want of nodes, blames the first item at which the
source is no longer the beginning of a module. -/
theorem blamesFirst_of_parse {source : Source} {ast : Ast} {error : ErrorData} {uninit : NodeId}
    {fuel : Nat} {e : Error} {p : Parser Lexer}
    (h : parse fuel (parserStart source ast error uninit) = some (.error e, p))
    (hroom : e ≠ .outOfNode) :
    ∃ us rest, BlamesFirst e p.error (resultsOf source) us rest := by
  obtain ⟨c', l, hcomes, hstops⟩ := stopsAt_of_parse (at_parserStart source ast error uninit) h
  have hruns := hcomes.runs
  obtain ⟨hblocked, hnames⟩ : parserTable.Blocked c' ∧ Names e p.error c'.2 := by
    cases hstops with
    | node he => exact absurd he hroom
    | blocked hblocked _ hnames _ => exact ⟨hblocked, hnames⟩
  -- behind the module comes the end, in front of which the body may stand empty
  have hlive : sampleWords.Live [.body moduleStop] := ⟨⟨Token.eof, rfl, by decide⟩, trivial⟩
  -- no accepted input goes on like the source does, and one goes on in another way
  obtain ⟨us, hsplit, hfirst⟩ := Predictive.not_accepts_of_blocked hruns hblocked
  obtain ⟨us', hsplit', hviable⟩ := sampleWords_keeps.completable hlive hruns
  obtain rfl : us = us' := List.append_cancel_right (hsplit.symm.trans hsplit')
  refine ⟨us, c'.2, hsplit, hnames, fun ws s hhead hmodule => ?_, ?_⟩
  · exact hfirst ws [] hhead (derivesModule_iff_runs.mp ⟨s, hmodule⟩)
  · rcases hviable with ⟨ws, haccepts⟩ | ⟨vs, _, ws, rfl, ⟨dot, rfl, hdot⟩, haccepts⟩
    · exact Or.inl ⟨ws, derivesModule_iff_runs.mpr haccepts⟩
    · exact Or.inr ⟨vs, dot, rfl, hdot, ws, derivesModule_iff_runs.mpr haccepts⟩

section
variable {K : UInt32} {c d : Compiler} {vm : TableManager} {fuel : Nat} {uninit : NodeId}
  {source : Source}

/-- A failed call of `nulang_compile` on a source that is no module blames the first item at which
the source is no longer the beginning of a module, unless the nodes are used up. -/
theorem compile_blamesFirst (hK : 0 < K.toNat) (hc : Used K c)
    (hrun : compile vm fuel uninit c source = some (.failure, d))
    (hmodule : ¬ ∃ s, DerivesModule (resultsOf source) s) (hroom : d.error ≠ some .outOfNode) :
    ∃ e us rest, d.error = some e ∧ BlamesFirst e d.errorData (resultsOf source) us rest := by
  have hblank : (compilerPrepare c source).ast.Blank := InOrder.blank (inOrder_of_used hK hc) hK
  rw [compile_eq] at hrun
  rcases hparse : parse fuel (compilerStart c source uninit) with _ | ⟨e | ⟨⟩, p⟩
  · rw [hparse] at hrun
    cases hrun
  · rw [hparse] at hrun
    cases hrun
    obtain ⟨us, rest, hblames⟩ := blamesFirst_of_parse hparse fun he => hroom (congrArg some he)
    exact ⟨e, us, rest, rfl, hblames⟩
  · exact absurd ⟨_, (derivesModule_of_parse hblank.toCleared hparse).1⟩ hmodule

end

/-- `f(1 2)`: a comma is missing. -/
def twoArgsSource : Source := ⟨['f', '(', '1', ' ', '2', ')'], by decide⟩

/-- In `twoArgsSource` the error is at the first item that no module goes on with. -/
theorem compile_blamesFirst_twoArgs :
    ∃ d, compile emptyTables 20 0 freshCompiler twoArgsSource = some (.failure, d) ∧
      ∃ e us rest, d.error = some e ∧
        BlamesFirst e d.errorData (resultsOf twoArgsSource) us rest := by
  have hresult : (parse 20 (compilerStart freshCompiler twoArgsSource 0)).map Prod.fst =
      some (.error .unexpectedToken) := by decide +kernel
  obtain ⟨⟨r, p⟩, hparse, hr⟩ := Option.map_eq_some_iff.mp hresult
  obtain rfl : r = .error .unexpectedToken := hr
  have hcompile : compile emptyTables 20 0 freshCompiler twoArgsSource =
      some (compilerResult (compilerPrepare freshCompiler twoArgsSource) (.error .unexpectedToken)
        p.ast p.error) := by
    rw [compile_eq, hparse]
  obtain ⟨us, rest, hblames⟩ := blamesFirst_of_parse hparse (by decide)
  -- The source is no module, as the item that the error names continues none.
  have hmodule : ¬ ∃ s, DerivesModule (resultsOf twoArgsSource) s := by
    rintro ⟨s, hs⟩
    rw [hblames.split] at hs
    exact hblames.first rest s rfl hs
  exact ⟨_, hcompile, compile_blamesFirst (by decide) used_freshCompiler hcompile hmodule nofun⟩

end Nucleus.Proofs
