import Mathlib.Data.List.Basic

/-!
# `Nucleus.Vm.Types`: primitives, error codes and strings of the virtual machine

The enumerations of `vm/types.h` and `vm/error.h`, and the string functions of `vm/string.h` that
the compiler uses. `NU_ERROR_NONE` is not a constructor: a function of the model that can fail
returns `Except Error α`, and `Except.ok` is `NU_ERROR_NONE`.

A `const nu_char_t *` is the list of the characters from the pointer up to the terminating NUL: the
NUL is the end of the list, so `charAt` reads it there.
-/

set_option autoImplicit false

namespace Nucleus.Vm

/-- `nu_primitive_t`. -/
inductive Primitive where
  | bool | int | fix | ivec2 | ivec3 | ivec4 | vec2 | vec3 | vec4 | mat4 | quat | entity
  | resource | unknown
  deriving DecidableEq, Repr

/-- `nu_error_t`, without `NU_ERROR_NONE`. -/
inductive Error where
  | outOfMemory | resourceNotFound | duplicatedEntry | outOfSystemItem | invalidState
  deriving DecidableEq, Repr

/-! ### Strings -/

/-- `s[i]` for a pointer `s`: the NUL past the last character. -/
def charAt (s : List Char) (i : Nat) : Char := s.getD i '\x00'

/-- `nu_strlen`. -/
def strlen : List Char → Nat
  | [] => 0
  | c :: s => if c = '\x00' then 0 else strlen s + 1

/-- `nu_strncmp`: zero when the first `n` characters agree, or both strings end before. The
result is the difference of the two characters the loop stops at. -/
def strncmp : List Char → List Char → Nat → Int
  | _, _, 0 => 0
  | s1, s2, n + 1 =>
      if charAt s1 0 ≠ '\x00' ∧ charAt s1 0 = charAt s2 0 then strncmp s1.tail s2.tail n
      else ((charAt s1 0).toNat : Int) - (charAt s2 0).toNat

end Nucleus.Vm
