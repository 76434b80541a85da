import Lockstep.Resource.Kind

set_option autoImplicit false

/-! # Binding slots and resource references

A slot is where a resource is bound: a register in a register space, or an index into a descriptor
heap. A reference is a slot together with what is known about the resource behind it. -/

namespace Lockstep

/-- The descriptor heap that a slot indexes, if any. -/
inductive HeapKind
  | noHeap | resources | samplers
deriving DecidableEq, Repr, Inhabited

instance : Named HeapKind where
  listing := [(.noHeap, "NoHeap"), (.resources, "CbvSrvUav"), (.samplers, "Sampler")]

/-- Where a resource is bound. -/
structure Slot where
  register : UInt32 := 0
  space : UInt32 := 0
  heap : HeapKind := .noHeap
  heapIndex : UInt32 := 0
deriving DecidableEq, Repr, Inhabited

namespace Slot

/-- The slot of a register in a register space. -/
def ofRegister (register space : UInt32) : Slot := { register, space }

/-- The slot of an index into a descriptor heap. -/
def ofHeap (heap : HeapKind) (heapIndex : UInt32) : Slot := { heap, heapIndex }

end Slot

/-- What is known of the texture or buffer behind a reference. -/
structure ResourceShape where
  kind : ResourceKind := .invalid
  sampleCount : UInt32 := 0
  component : ComponentKind := .invalid
deriving DecidableEq, Repr, Inhabited

/-- A resource that a handle refers to. -/
structure ResourceRef where
  cls : ResourceClass
  slot : Slot
  shape : ResourceShape := {}
  samplerMode : SamplerMode := .standard
deriving DecidableEq, Repr, Inhabited

/-- The host's token for an access to a descriptor heap. -/
structure DirectAccess where
  store : UInt64 := 0
  byteOffset : UInt32 := 0
  byteSize : UInt32 := 0
deriving DecidableEq, Repr, Inhabited

end Lockstep
