import Nucleus.Spec.Syntax
import Nucleus.Vm.Ident

/-!
# `Nucleus.Spec.Static`: the static semantics of a module

When a parsed module is a correct program, in terms of its abstract syntax alone. The names in
force are a list of texts: the functions of the module everywhere, and a variable or an argument
from its declaration to the end of the body around it. `WellScoped` goes through the syntax with
this list, and `StaticallyCorrect` is the whole condition.

The limit on the number of names in force is the code's: its symbol table is an array.
-/

set_option autoImplicit false

namespace Nucleus.Spec

open Nucleus.Lib
open Nucleus.Lang

/-- The characters of a name. -/
abbrev Name : Type := List Char

namespace Kind

/-- The name that a node declares for what is behind it in its scope. -/
def declared : Kind → Option Name
  | .vardecl name _ => some name.text
  | .argdecl name _ => some name.text
  | _ => none

/-- The name that a function declares, when it stands at the top of the module. -/
def functionName : Kind → Option Name
  | .fundecl name _ _ => some name.text
  | _ => none

/-- The name that a node uses. -/
def used : Kind → Option Name
  | .symref name => some name.text
  | _ => none

/-- The declarations below the node end with it. -/
def isScope : Kind → Bool
  | .compound => true
  | .fundecl _ _ _ => true
  | _ => false

/-- The name of the archetype that a node refers to. -/
def archetypeName : Kind → Option SourceString
  | .fundecl _ ty _ | .argdecl _ ty | .vardecl _ ty =>
      if ty.primitive = .entity then ty.archetypeName else none
  | .insert name | .singleton name => some name
  | _ => none

/-- The names in force below a node, `names` at the node. -/
def declare (names : List Name) (k : Kind) : List Name :=
  match k.declared with
  | some name => name :: names
  | none => names

/-- A node is allowed where `names` are in force: a declaration has a new name, for which there is
room, and a use has one of the names. -/
structure Allowed (limit : Nat) (names : List Name) (k : Kind) : Prop where
  declares : ∀ name ∈ k.declared, name ∉ names ∧ names.length < limit
  uses : ∀ name ∈ k.used, name ∈ names

instance (limit : Nat) (names : List Name) (k : Kind) : Decidable (k.Allowed limit names) :=
  decidable_of_iff ((∀ name ∈ k.declared, name ∉ names ∧ names.length < limit) ∧
    ∀ name ∈ k.used, name ∈ names) ⟨fun h => ⟨h.1, h.2⟩, fun h => ⟨h.1, h.2⟩⟩

end Kind

/-- The names in force behind a piece of syntax, `names` in front of it. -/
def namesBehind : List Name → Syn → List Name
  | names, .nil => names
  | names, .cons k cs next =>
      namesBehind (if k.isScope then names else namesBehind (k.declare names) cs) next

/-- Every node of a piece of syntax is allowed, with `names` in force in front of it. -/
def WellScoped (limit : Nat) : List Name → Syn → Prop
  | _, .nil => True
  | names, .cons k cs next =>
      k.Allowed limit names ∧ WellScoped limit (k.declare names) cs ∧
        WellScoped limit (if k.isScope then names else namesBehind (k.declare names) cs) next

instance instDecidableWellScoped (limit : Nat) :
    (names : List Name) → (s : Syn) → Decidable (WellScoped limit names s)
  | _, .nil => isTrue trivial
  | names, .cons k cs next =>
      have := instDecidableWellScoped limit (k.declare names) cs
      have := instDecidableWellScoped limit
        (if k.isScope then names else namesBehind (k.declare names) cs) next
      inferInstanceAs (Decidable (_ ∧ _ ∧ _))

/-- The names of the functions of a module, in their order. -/
def functionNames (s : Syn) : List Name := s.roots.filterMap Kind.functionName

/-- The hash that the compiler looks an archetype up with. -/
def nameUid (name : Name) : UInt32 :=
  Vm.fnv1aHash32 (name.map fun c => UInt8.ofNat c.toNat)

/-- A module is a correct program: its functions have different names, every declaration has a name
that is not in force and every use one that is, and its archetypes are known. -/
structure StaticallyCorrect (limit : Nat) (known : UInt32 → Prop) (s : Syn) : Prop where
  functions : (functionNames s).Nodup
  room : (functionNames s).length ≤ limit
  body : WellScoped limit (functionNames s).reverse s
  archetypes : ∀ k ∈ s.labels, ∀ name ∈ k.archetypeName, known (nameUid name.text)

/-! ### What the compiler adds -/

/-- The type with the archetype that `find` has for its name. -/
def resolveType (find : UInt32 → Archetype) (ty : Vartype) : Vartype :=
  if ty.primitive = .entity then
    match ty.archetypeName with
    | some name => { ty with archetype := some (find (nameUid name.text)) }
    | none => ty
  else ty

/-- The node with the archetype of its type. -/
def Kind.resolve (find : UInt32 → Archetype) : Kind → Kind
  | .fundecl name ty exported => .fundecl name (resolveType find ty) exported
  | .argdecl name ty => .argdecl name (resolveType find ty)
  | .vardecl name ty => .vardecl name (resolveType find ty)
  | k => k

end Nucleus.Spec
