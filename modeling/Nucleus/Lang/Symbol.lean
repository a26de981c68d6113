import Nucleus.Lang.Parser

/-!
# `Nucleus.Lang.Symbol`: the resolution of symbols

The pass of `lang/analyzer/symbol.h`. It keeps the declarations that are visible in two arrays
of 1024 entries, `names` and `ids`, with the common length `size`. The model keeps them as one
list of pairs, the last entry first.

A definition that finds the arrays full stores behind them. The source promises nothing from
there on, and the run of the model has no result.
-/

set_option autoImplicit false

namespace Nucleus.Lang

open Nucleus.Lib

/-- `nulang__symbol_resolver_t`. -/
structure SymbolResolver where
  ast : Ast
  symbols : List (SourceString × NodeId)
  error : ErrorData

/-- A function of the resolver. -/
abbrev SymbolM : Type → Type := Prog SymbolResolver Error

/-- The length of the arrays. -/
def maxSymbols : Nat := 1024

/-- `nulang__find_symbol`. -/
def findSymbol (symref : NodeId) (name : SourceString) : SymbolM NodeId := do
  let symbols ← Prog.gets (·.symbols)
  -- the newest declaration is found first
  match symbols.find? fun s => sourceStringEquals s.1 name with
  | some s => pure s.2
  | none => do
      Prog.modify fun r => { r with error := { r.error with span := (r.ast.nodes symref).span } }
      Prog.fail .unresolvedSymbol

/-- The stores of `nulang__define_symbol` into the arrays. -/
def pushSymbol (name : SourceString) (id : NodeId) : SymbolM Unit := do
  let symbols ← Prog.gets (·.symbols)
  if symbols.length < maxSymbols then
    Prog.modify fun r => { r with symbols := (name, id) :: r.symbols }
  -- beyond the arrays the model has no behaviour
  else Prog.diverge

/-- `nulang__define_symbol`. -/
def defineSymbol (name : SourceString) (id : NodeId) : SymbolM Unit := do
  match ← Prog.attempt (findSymbol id name) with
  -- the name is free where it is not found
  | .error .unresolvedSymbol => pushSymbol name id
  | _ => do
      Prog.modify fun r => { r with error := { r.error with span := (r.ast.nodes id).span } }
      Prog.fail .symbolAlreadyDefined

/-- `node.value.symref.node = ref`. -/
def setReference (ref : NodeId) (n : Node) : Node :=
  match n.value with
  | .symref _ name => { n with value := .symref ref name }
  | _ => n

/-- The first switch of `nulang__resolve_symbols_scoped`. -/
def resolveNode (id node : NodeId) : SymbolM Unit := do
  let n ← Prog.gets fun r => r.ast.nodes node
  match n.type with
  -- the declaration comes before its initialiser
  | .astVardecl => defineSymbol n.value.name id
  | .astArgdecl => defineSymbol n.value.name id
  | .astSymref => do
      let name ← Prog.gets fun r => (r.ast.nodes id).value.name
      let ref ← findSymbol id name
      Prog.modify fun r => { r with ast := r.ast.modifyNode id (setReference ref) }
  | _ => pure ()

/-- The second switch of `nulang__resolve_symbols_scoped`: `resolver->size = size`. -/
def closeScope (node : NodeId) (size : Nat) : SymbolM Unit := do
  let n ← Prog.gets fun r => r.ast.nodes node
  match n.type with
  | .astCompound | .astFundecl =>
      Prog.modify fun r => { r with symbols := r.symbols.drop (r.symbols.length - size) }
  | _ => pure ()

/-- `nulang__resolve_symbols_scoped`, with `fuel` levels of recursion. -/
def resolveSymbolsScoped : Nat → NodeId → NodeId → SymbolM Unit
  | 0, _, _ => Prog.diverge
  | n + 1, id, node => do
      let size ← Prog.gets (·.symbols.length)
      resolveNode id node
      astForeachChilds (·.ast) (resolveSymbolsScoped n) n id
      closeScope node size

/-- One turn of the loop of `nulang__resolve_symbols` over the children of the root. -/
def resolveFundecl (child : NodeId) : SymbolM (ForInStep NodeId) := do
  let child ← Prog.gets fun r => iterChilds r.ast r.ast.root child
  if child = nodeNull then pure (.done child)
  else do
    let pchild ← Prog.gets fun r => r.ast.nodes child
    if pchild.type = .astFundecl then defineSymbol pchild.value.name child else pure ()
    pure (.yield child)

/-- `nulang__resolve_symbols`, from a resolver without symbols. -/
def resolveSymbols (fuel : Nat) : SymbolM Unit := do
  let _ ← Prog.loop resolveFundecl fuel nodeNull
  let root ← Prog.gets (·.ast.root)
  resolveSymbolsScoped fuel root 0

end Nucleus.Lang
