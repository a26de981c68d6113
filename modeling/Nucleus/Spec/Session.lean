import Nucleus.Lang.Session
import Nucleus.Spec.Alike

/-!
# `Nucleus.Spec.Session`: what a program can observe

Two programs agree when their allocators and their cartridges give the same answers. What is in
their memory is another matter: `Program.Agree` does not compare the content of a block, of a local
or of a structure that was not initialised. `Answer.Alike` compares what a call tells its caller:
the error codes, the handles, the trees, and the spans of the errors that store one.
-/

set_option autoImplicit false

namespace Nucleus.Lang

open Nucleus.Vm (VmProperties)

/-- The capacities that a virtual machine is made with. -/
structure SameCapacities (props props' : VmProperties) : Prop where
  table : props.tableCapacity = props'.tableCapacity
  field : props.fieldCapacity = props'.fieldCapacity
  chunk : props.chunkCapacity = props'.chunkCapacity
  resource : props.resourceCapacity = props'.resourceCapacity

/-- The two programs give the same answers, and `R` relates their states from answer to answer. -/
structure Program.Agree {E E' : Type} (R : E → E' → Prop) (p : Program E) (p' : Program E') :
    Prop where
  sizes : p.sizes = p'.sizes
  callback : ∀ e e', R e e' → ∀ size align usage,
    (p.callback size align usage e).1 = (p'.callback size align usage e').1 ∧
      R (p.callback size align usage e).2 (p'.callback size align usage e').2
  load : ∀ e e', R e e' →
    (p.load .vmProperties (p.properties e) e).1.1 =
        (p'.load .vmProperties (p'.properties e') e').1.1 ∧
      ((p.load .vmProperties (p.properties e) e).1.1 = none →
        SameCapacities (p.load .vmProperties (p.properties e) e).1.2
          (p'.load .vmProperties (p'.properties e') e').1.2) ∧
      R (p.load .vmProperties (p.properties e) e).2
        (p'.load .vmProperties (p'.properties e') e').2

/-- The errors of `nulang_compile` that store no span, with an error that only sometimes stores one:
a full arena, and an illegal character. -/
def unplacedErrors : List Error := [.outOfNode, .illegalCharacter]

/-- Two answers that a program cannot tell apart. -/
inductive Answer.Alike : Answer → Answer → Prop where
  | vmInit (error : Option Vm.Error) : Alike (.vmInit error) (.vmInit error)
  | createArchetype (error : Option Vm.Error) (archetype : Archetype) :
      Alike (.createArchetype error archetype) (.createArchetype error archetype)
  | compilerInit (status : Status) (error : Option Error) :
      Alike (.compilerInit status error) (.compilerInit status error)
  | compile {status : Status} {c c' : Compiler} : c.error = c'.error →
      (status = .success → c.ast.Same c'.ast) →
      (∀ e, c.error = some e → e ∉ unplacedErrors → c.errorData.span = c'.errorData.span) →
      Alike (.compile status c) (.compile status c')

end Nucleus.Lang
