import Lockstep.Layout
import Lockstep.Fault

set_option autoImplicit false

/-! # Memory

A memory holds allocations, which are byte strings known by the identifier that made them, and
pointers, which are ranges of allocations known by the identifiers that hold them. An access goes
through a pointer and is checked against the allocation. -/

namespace Lockstep

/-- The bytes behind an allocation. -/
structure Allocation where
  bytes : Bytes
  /-- Whether it lives as long as the session. -/
  isGlobal : Bool
deriving Repr, Inhabited

/-- A range of an allocation, with the type of the value there. -/
structure Pointer where
  base : Id
  offset : Nat
  size : Nat
  pointee : Ty
deriving Repr, Inhabited

namespace Pointer

/-- One more than the last position of `length` bytes from the pointer on, as a 64-bit word. -/
def stop (p : Pointer) (length : Nat) : Nat := (p.offset + length) % UInt64.size

end Pointer

/-- Allocations and pointers. -/
structure Memory where
  allocations : Table Id Allocation := .empty
  pointers : Table Id Pointer := .empty
  /-- How many writes have succeeded. -/
  writes : Nat := 0
deriving Inhabited

namespace Memory

/-- The allocation of an identifier. -/
def allocation? (m : Memory) (id : Id) : Option Allocation := m.allocations.get? id

/-- The pointer that an identifier holds. -/
def pointer? (m : Memory) (id : Id) : Option Pointer := m.pointers.get? id

/-- Whether an identifier has an allocation. -/
def hasAllocation (m : Memory) (id : Id) : Bool := (m.allocation? id).isSome

/-- Make an identifier hold a pointer. -/
def addPointer (m : Memory) (id : Id) (p : Pointer) : Memory :=
  { m with pointers := m.pointers.insert id p }

/-- Allocate zeroed bytes for a value of a type, known by an identifier that also points to them. -/
def allocate (m : Memory) (id : Id) (pointee : Ty) (isGlobal : Bool) : Memory :=
  let size := pointee.byteSize
  { m with
    allocations := m.allocations.insert id { bytes := List.replicate size 0, isGlobal }
    pointers := m.pointers.insert id { base := id, offset := 0, size, pointee } }

/-- Allocate for what a pointer type points to, and give the zero of that. -/
def allocateFor (m : Memory) (ty : Ty) (id : Id) (isGlobal : Bool) (name : String) :
    Except Fault (Variable × Memory) :=
  match ty.pointee? with
  | none => .error (.memory (.notAPointerType id))
  | some pointee => .ok (Variable.zeroed name pointee, m.allocate id pointee isGlobal)

/-- The bytes that a pointer addresses. -/
def read (m : Memory) (p : Pointer) : Except Fault Bytes :=
  match m.allocation? p.base with
  | none => .error (.memory (.noAllocation p.base))
  | some a =>
    match a.bytes.slice? p.offset (p.stop p.size) with
    | none =>
      .error (.memory (.readOutside p.offset (p.stop p.size) p.base a.bytes.length))
    | some bytes => .ok bytes

/-- Overwrite the start of the range that a pointer addresses. -/
def write (m : Memory) (p : Pointer) (bytes : Bytes) : Except Fault Memory :=
  if bytes.length > p.size then .error (.memory (.writeTooLong bytes.length p.size))
  else
    match m.allocation? p.base with
    | none => .error (.memory (.noAllocation p.base))
    | some a =>
      match a.bytes.splice? p.offset bytes with
      | none =>
        .error (.memory (.writeOutside p.offset (p.stop bytes.length) p.base a.bytes.length))
      | some new =>
        .ok { m with
          allocations := m.allocations.insert p.base { a with bytes := new }
          writes := m.writes + 1 }

/-- A variable with the content of a whole allocation. -/
def reload (m : Memory) (base : Id) (v : Variable) : Except Fault Variable :=
  match m.allocation? base with
  | none => .error (.memory (.noAllocation base))
  | some a => .ok (v.ofBytes a.bytes)

end Memory

end Lockstep
