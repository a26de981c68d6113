import Nucleus.Proofs.Halting

/-!
# `Nucleus.Proofs.Acceptance`: the sources that `nulang__parse` accepts

The parser accepts exactly the sources of the grammar whose syntax fits into the arena, and it
stores their syntax (`parse_accepts_iff`). The parser could stand still in a source that the
grammar derives, or return from one with another tree: neither happens, because a derivation takes
the machine of the table to its end (`parse_of_derives`) and the grammar is deterministic.
-/

set_option autoImplicit false

namespace Nucleus.Spec

open Nucleus.Lib
open Nucleus.Lang

/-- The results of a module are derived in one way. -/
theorem DerivesModule.unique {rs : List LexResult} {s s' : Syn} (h : DerivesModule rs s)
    (h' : DerivesModule rs s') : s = s' :=
  (h.body.unique h'.body).1

end Nucleus.Spec

namespace Nucleus.Lang

open Nucleus.Lib
open Nucleus.Spec

/-- The trees of an arena that holds a module fit behind its root. -/
theorem Ast.HoldsModule.size_lt {a : Ast} {ts : Located} (h : a.HoldsModule ts) :
    ts.size + 1 ≤ a.nodeCapacity.toNat := by
  have hcount := h.perm.length_eq
  rw [List.length_cons, length_ids, List.length_range] at hcount
  have hle := h.valid.le
  omega

/-- The free nodes of a cleared arena. -/
theorem Ast.Cleared.free_eq {a : Ast} (h : a.Cleared) : a.free + 1 = a.nodeCapacity.toNat := by
  have hpos := h.capacity
  rw [Ast.free, h.nodeCount]
  omega

end Nucleus.Lang

namespace Nucleus.Proofs

open Nucleus.Lib
open Nucleus.Lib.Prog
open Nucleus.Lang
open Nucleus.Spec

/-- A source that the grammar derives, with a syntax that fits, is parsed into it. -/
theorem parse_of_derivesModule {source : Source} {ast : Ast} {s : Syn} (error : ErrorData)
    (uninit : NodeId) (hast : ast.Cleared) (hder : DerivesModule (resultsOf source) s)
    (hsize : s.size ≤ ast.free) :
    ∃ fuel p, parse fuel (parserStart source ast error uninit) = some (.ok (), p) ∧
      p.ast.syntaxOf = s := by
  obtain ⟨fuel, p, hrun⟩ := parse_of_derives (at_parserStart source ast error uninit) hder hsize
  obtain ⟨ts, hholds, -, hder'⟩ := holdsModule_of_parse hast hrun
  refine ⟨fuel, p, hrun, ?_⟩
  rw [hholds.syntaxOf]
  exact hder'.unique hder

/-- A run that succeeds has parsed a source of the grammar into its syntax, which fits. -/
theorem derivesModule_of_parse {source : Source} {ast : Ast} {error : ErrorData}
    {uninit : NodeId} {fuel : Nat} {p : Parser Lexer} (hast : ast.Cleared)
    (h : parse fuel (parserStart source ast error uninit) = some (.ok (), p)) :
    DerivesModule (resultsOf source) p.ast.syntaxOf ∧ p.ast.syntaxOf.size ≤ ast.free := by
  obtain ⟨ts, hholds, hcap, hder⟩ := holdsModule_of_parse hast h
  have hsize := hholds.size_lt
  have hfree := hast.free_eq
  rw [hholds.syntaxOf, size_syn]
  rw [hcap] at hsize
  exact ⟨hder, by omega⟩

/-- `nulang__parse` accepts a source with a syntax exactly when the grammar derives this syntax
from all its tokens and the arena has a node for each of its parts besides the root. -/
theorem parse_accepts_iff {source : Source} {ast : Ast} {error : ErrorData} {uninit : NodeId}
    {s : Syn} (hast : ast.Cleared) :
    (∃ fuel p, parse fuel (parserStart source ast error uninit) = some (.ok (), p) ∧
      p.ast.syntaxOf = s) ↔
    DerivesModule (resultsOf source) s ∧ s.size + 1 ≤ ast.nodeCapacity.toNat := by
  have hfree := hast.free_eq
  constructor
  · rintro ⟨fuel, p, hrun, rfl⟩
    obtain ⟨hder, hsize⟩ := derivesModule_of_parse hast hrun
    exact ⟨hder, by omega⟩
  · rintro ⟨hder, hsize⟩
    exact parse_of_derivesModule error uninit hast hder (by omega)

/-- The parse of `if` succeeds, so there is a module that it says and that has room. -/
theorem parse_accepts_iff_ifSource :
    ∃ s, DerivesModule (resultsOf ifSource) s ∧ s.size + 1 ≤ 16 := by
  obtain ⟨p, hrun⟩ := parse_ifSource
  exact ⟨_, (parse_accepts_iff (astInit_cleared _ (by decide))).mp ⟨12, p, hrun, rfl⟩⟩

end Nucleus.Proofs
