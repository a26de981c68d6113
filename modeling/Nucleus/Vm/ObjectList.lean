import Mathlib.Logic.Function.Basic

/-!
# `Nucleus.Vm.ObjectList`: the object list

`nu__list_t` of `vm/list.h`. Every object of a list has a header in front of it, and the header
is on the list of objects, which is linked both ways, or on the free chain, which uses `next`
only. The memory of the model gives each address the header that is stored there.

The allocator is a callback of the host. The model asks it for its answers: `answer i` is the
address it returns at its call number `i`, `null` when it fails.
-/

set_option autoImplicit false

namespace Nucleus.Vm

/-- An address. -/
abbrev Address : Type := Nat

/-- `NU_NULL`. -/
def null : Address := 0

/-- `sizeof(struct nu__list_header)`: two pointers. -/
def headerSize : Nat := 16

/-- `struct nu__list_header`. -/
structure ListHeader where
  prev : Address
  next : Address
  deriving DecidableEq, Repr

/-- `nu__list_t`. -/
structure ObjectList where
  size : Nat
  first : Address
  head : Address
  free : Address
  deriving DecidableEq, Repr

/-- A list with the headers in memory and the number of calls of the allocator so far. -/
structure ListState where
  list : ObjectList
  headers : Address → ListHeader
  calls : Nat

/-- `nu__object_from_header`. -/
def objectFromHeader (header : Address) : Address := header + headerSize

/-- `nu__header_from_object`. -/
def headerFromObject (obj : Address) : Address := obj - headerSize

namespace ListState

/-- Store `f` of the header at `header`. -/
def modifyHeader (s : ListState) (header : Address) (f : ListHeader → ListHeader) : ListState :=
  { s with headers := Function.update s.headers header (f (s.headers header)) }

end ListState

/-- `nu__list_init`, in a memory with some content. -/
def listInit (objSize : Nat) (headers : Address → ListHeader) : ListState :=
  { list := { size := objSize + headerSize, first := null, head := null, free := null }
    headers, calls := 0 }

/-- The first part of `nu__list_append`: a header off the free chain, or the one of a new
block. `none` when the allocator fails. -/
def createObject (answer : Nat → Address) (s : ListState) : Option Address × ListState :=
  if s.list.free ≠ null then
    let header := s.list.free
    -- a header that was freed is taken again
    (some header, { s with list := { s.list with free := (s.headers header).next } })
  else
    let object := answer s.calls
    let s := { s with calls := s.calls + 1 }
    if object = null then (none, s) else (some (headerFromObject object), s)

/-- The second part of `nu__list_append`: `header` becomes the last one of the objects. -/
def linkHeader (header : Address) (s : ListState) : ListState :=
  let s :=
    if s.list.head ≠ null then
      (s.modifyHeader s.list.head fun h => { h with next := header }).modifyHeader header
        fun h => { h with prev := s.list.head }
    else
      let s := s.modifyHeader header fun h => { h with prev := null }
      { s with list := { s.list with first := header } }
  let s := s.modifyHeader header fun h => { h with next := null }
  { s with list := { s.list with head := header } }

/-- `nu__list_append`. -/
def listAppend (answer : Nat → Address) (s : ListState) : Address × ListState :=
  match createObject answer s with
  | (none, s) => (null, s)
  | (some header, s) => (objectFromHeader header, linkHeader header s)

/-- The headers that `nu__list_append` reads or writes. A failed call of the allocator touches
none. -/
def appendAccesses (answer : Nat → Address) (s : ListState) : List Address :=
  match createObject answer s with
  | (none, _) => []
  | (some header, s) => if s.list.head ≠ null then [header, s.list.head] else [header]

/-- The first part of `nu__list_remove`: `header` leaves the list of objects. -/
def unlinkHeader (header : Address) (s : ListState) : ListState :=
  let s :=
    if (s.headers header).prev ≠ null then
      s.modifyHeader (s.headers header).prev fun h => { h with next := (s.headers header).next }
    else s
  let s :=
    if (s.headers header).next ≠ null then
      s.modifyHeader (s.headers header).next fun h => { h with prev := (s.headers header).prev }
    else s
  let s :=
    if s.list.head = header then
      { s with list := { s.list with head := (s.headers header).prev } }
    else s
  if s.list.first = header then
    { s with list := { s.list with first := (s.headers header).next } }
  else s

/-- `nu__list_remove`. -/
def listRemove (s : ListState) (obj : Address) : ListState :=
  let header := headerFromObject obj
  let s := unlinkHeader header s
  -- the header goes to the front of the free chain
  let s := s.modifyHeader header fun _ => ⟨null, s.list.free⟩
  { s with list := { s.list with free := header } }

/-- The headers that `nu__list_remove` reads or writes. -/
def removeAccesses (s : ListState) (obj : Address) : List Address :=
  let header := headerFromObject obj
  let prev := (s.headers header).prev
  let next := (s.headers header).next
  header :: ((if prev ≠ null then [prev] else []) ++ if next ≠ null then [next] else [])

/-- `nu__list_first`. -/
def listFirst (s : ListState) : Address :=
  if s.list.first ≠ null then objectFromHeader s.list.first else null

/-- `nu__list_next`. -/
def listNext (s : ListState) (obj : Address) : Address :=
  if (s.headers (headerFromObject obj)).next ≠ null then
    objectFromHeader (s.headers (headerFromObject obj)).next
  else null

end Nucleus.Vm
