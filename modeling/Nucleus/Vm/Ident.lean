import Nucleus.Lib.Footprint
import Nucleus.Vm.Types

/-!
# `Nucleus.Vm.Ident`: identifiers

`nu_ident_t` of `vm/string.h`: a buffer of 32 bytes that holds up to 30 characters, and its
length in the last byte. A buffer is a function from offsets to bytes: it has some content
before it is set.

The two setters are also modelled on the memory from the start of the identifier on. `nu_memset` and
`nu_memcpy` write one byte after the other there, and a length that is a `nu_size_t` wraps around at
`2 ^ 64`. The identifier is the first `identSize` bytes, and the setters may write behind it.
-/

set_option autoImplicit false

namespace Nucleus.Vm

open Nucleus.Lib

/-- `NU_IDENT_MAX`. -/
def identMax : Nat := 30

/-- `nu_ident_t`. -/
abbrev Ident : Type := Nat → UInt8

/-- `nu_strnlen`. -/
def strnlen : List Char → Nat → Nat
  | _, 0 => 0
  | str, maxlen + 1 => if charAt str 0 = '\x00' then 0 else strnlen str.tail maxlen + 1

/-- `nu_memset(dst + offset, c, n)`. -/
def memset (dst : Ident) (offset : Nat) (c : UInt8) (n : Nat) : Ident :=
  fun i => if offset ≤ i ∧ i < offset + n then c else dst i

/-- `nu_memcpy(dst, src, n)` from a string. -/
def memcpy (dst : Ident) (src : List Char) (n : Nat) : Ident :=
  fun i => if i < n then UInt8.ofNat (charAt src i).toNat else dst i

/-- `nu__ident_set_len`. -/
def identSetLen (ident : Ident) (len : Nat) : Ident :=
  -- the bytes up to `identMax` are cleared, that one is not
  memset (fun i => if i = identMax + 1 then UInt8.ofNat len else ident i) len 0 (identMax - len)

/-- `nu_ident_set_str`. -/
def identSetStr (ident : Ident) (s : List Char) : Ident :=
  let n := strnlen s identMax
  memcpy (identSetLen ident n) s n

/-- `nu_ident_len`. -/
def identLen (ident : Ident) : Nat := (ident (identMax + 1)).toNat

/-- The bytes of `nu_ident_str` up to the length. -/
def identStr (ident : Ident) : List UInt8 := (List.range (identLen ident)).map ident

/-- `nu_fnv1a_hash_32`. -/
def fnv1aHash32 (bytes : List UInt8) : UInt32 :=
  bytes.foldl (fun hash b => (hash ^^^ b.toUInt32) * 0x01000193) 0x811c9dc5

/-- `nu_ident_uid`. -/
def identUid (ident : Ident) : UInt32 := fnv1aHash32 (identStr ident)

/-- `nu_uid`. -/
def uid (str : List Char) : UInt32 :=
  fnv1aHash32 ((List.range (strlen str)).map fun i => UInt8.ofNat (charAt str i).toNat)

/-- `nu_uidn`. -/
def uidn (str : List Char) (n : Nat) : UInt32 :=
  fnv1aHash32 ((List.range n).map fun i => UInt8.ofNat (charAt str i).toNat)

/-! ### The setters in memory -/

/-- `NU_IDENT_SIZE`. -/
def identSize : Nat := identMax + 2

/-- The byte at `s + i`. -/
def byteAt (s : List Char) (i : Nat) : UInt8 := UInt8.ofNat (charAt s i).toNat

/-- `nu__ident_set_len`. -/
def identSetLenIn (ident : Memory) (len : Nat) : Memory :=
  let ident := ident.store (identMax + 1) (UInt8.ofNat len)
  ident.fill len 0 (UInt64.ofNat identMax - UInt64.ofNat len).toNat

/-- `nu_ident_set`. -/
def identSetIn (ident : Memory) (s : List Char) (n : Nat) : Memory :=
  -- the clamp is the size of the whole buffer
  let n := if identSize < n then identSize else n
  (identSetLenIn ident n).copy (byteAt s) n

/-- `nu_ident_set_str`. -/
def identSetStrIn (ident : Memory) (s : List Char) : Memory :=
  let n := strnlen s identMax
  (identSetLenIn ident n).copy (byteAt s) n

end Nucleus.Vm
