import Nucleus.Vm.Ident

/-!
# `Nucleus.Spec.Idents`: what an identifier holds

A setter is called on a memory that nothing has been written to, and with a text without a NUL. The
identifier should hold the first `identMax` bytes of the text, with a NUL behind them, their length
and their hash, and the setter should write nowhere else (`Establishes`).
-/

set_option autoImplicit false

namespace Nucleus.Spec

open Nucleus.Lib
open Nucleus.Vm

/-- Bytes without a NUL. -/
structure ByteString where
  chars : List Char
  isByte : ∀ c ∈ chars, 0 < c.toNat ∧ c.toNat < 256

/-- The first `identMax` bytes. -/
def ByteString.ident (s : ByteString) : List UInt8 :=
  (s.chars.take identMax).map fun c => UInt8.ofNat c.toNat

/-- The two setters. -/
inductive IdentSetter where
  | identSet | identSetStr
  deriving DecidableEq, Repr

/-- A call of the setter. -/
def IdentSetter.call (setter : IdentSetter) (prior : Nat → UInt8) (s : ByteString) : Memory :=
  match setter with
  | .identSet => identSetIn (.fresh prior) s.chars s.chars.length
  | .identSetStr => identSetStrIn (.fresh prior) s.chars

/-- The bytes from the start on are the text `t` and the NUL that ends it. -/
structure IsString (bytes : Nat → UInt8) (t : List UInt8) : Prop where
  text : ∀ i (hi : i < t.length), bytes i = t[i] ∧ t[i] ≠ 0
  terminator : bytes t.length = 0

/-- The setter establishes the identifier of the text. -/
structure Establishes (setter : IdentSetter) (prior : Nat → UInt8) (s : ByteString) : Prop where
  len : identLen (setter.call prior s).bytes = min s.chars.length identMax
  str : IsString (setter.call prior s).bytes s.ident
  uid : identUid (setter.call prior s).bytes = uidn s.chars (min s.chars.length identMax)
  inside : ∀ a, (setter.call prior s).footprint a = true → a < identSize

/-- A shorter text has a NUL written behind it. A text of `identMax` bytes ends at the byte that
neither setter writes, and a longer one is cut there by `nu_ident_set_str` only. -/
def IdentSetter.Fits (setter : IdentSetter) (prior : Nat → UInt8) (s : ByteString) : Prop :=
  s.chars.length < identMax ∨
    (prior identMax = 0 ∧ (setter = .identSet → s.chars.length = identMax))

end Nucleus.Spec
