import Nucleus.Lang.Archetype
import Nucleus.Lang.Symbol

/-!
# `Nucleus.Lang.Compiler`: the compiler

`nulang_compiler_init` and `nulang_compile` of `lang/compiler.h`, with the two passes of
`lang/analyzer.h`. `nulang__print_node`, which `nulang_compile` calls between them, writes to the
standard output only and is left out.

The fields of a new compiler that `nulang_compiler_init` does not store, and the nodes it
allocates, have some content before they are stored.
-/

set_option autoImplicit false

namespace Nucleus.Lang

open Nucleus.Lib
open Nucleus.Vm (TableManager)

/-- `nulang_status_t`. -/
inductive Status where
  | success | failure
  deriving DecidableEq, Repr

/-- `nulang_compiler_t`, without the VM. An `error` of `none` is `NULANG_ERROR_NONE`. -/
structure Compiler where
  ast : Ast
  source : Source
  error : Option Error
  errorData : ErrorData

/-- `nulang_compiler_init` with an allocated block. -/
def compilerInit (nodeCapacity : UInt32) (memory : NodeId → Node) (source : Source)
    (errorData : ErrorData) : Compiler :=
  { ast := astInit nodeCapacity memory, source, error := none, errorData }

/-- `nulang__compiler_prepare`. -/
def compilerPrepare (compiler : Compiler) (source : Source) : Compiler :=
  { compiler with ast := astClear compiler.ast, source }

/-- `nulang__analyze`: the result, the tree and the error data. -/
def analyze (vm : TableManager) (fuel : Nat) (ast : Ast) (error : ErrorData) :
    Option (Except Error Unit × Ast × ErrorData) :=
  match resolveSymbols fuel ⟨ast, [], error⟩ with
  | none => none
  | some (.error e, r) => some (.error e, r.ast, r.error)
  | some (.ok _, r) =>
      match resolveArchetypes vm fuel ⟨r.ast, r.error⟩ with
      | none => none
      | some (result, r) => some (result, r.ast, r.error)

/-- The status of a result, and the compiler with its error code, tree and error data. -/
def compilerResult (compiler : Compiler) (result : Except Error Unit) (ast : Ast)
    (errorData : ErrorData) : Status × Compiler :=
  match result with
  | .error e => (.failure, { compiler with ast, errorData, error := some e })
  | .ok _ => (.success, { compiler with ast, errorData, error := none })

/-- `nulang_compile`. -/
def compile (vm : TableManager) (fuel : Nat) (uninit : NodeId) (compiler : Compiler)
    (source : Source) : Option (Status × Compiler) :=
  let compiler := compilerPrepare compiler source
  match parse fuel (parserStart source compiler.ast compiler.errorData uninit) with
  | none => none
  -- a failed parse is not analysed
  | some (.error e, p) => some (compilerResult compiler (.error e) p.ast p.error)
  | some (.ok _, p) =>
      match analyze vm fuel p.ast p.error with
      | none => none
      | some (result, ast, errorData) => some (compilerResult compiler result ast errorData)

end Nucleus.Lang
