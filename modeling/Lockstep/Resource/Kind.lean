import Lockstep.ElemType

set_option autoImplicit false

/-! # Kinds of resources

The classifications that declarations, handles and requests to the host speak of. Those that a
program names by number have a decoder from that number. -/

namespace Lockstep

/-- The category of a descriptor in a heap. -/
inductive DescriptorCategory
  | readOnlyResource | readWriteResource | constantBlock | sampler
deriving DecidableEq, Repr, Inhabited

instance : Named DescriptorCategory where
  listing := [
    (.readOnlyResource, "ReadOnlyResource"), (.readWriteResource, "ReadWriteResource"),
    (.constantBlock, "ConstantBlock"), (.sampler, "Sampler")]

/-! ## Classes -/

/-- The class of a resource: how a program may use it. -/
inductive ResourceClass
  | srv | uav | cBuffer | sampler
deriving DecidableEq, Repr, Inhabited

instance : Named ResourceClass where
  listing := [(.srv, "Srv"), (.uav, "Uav"), (.cBuffer, "CBuffer"), (.sampler, "Sampler")]

namespace ResourceClass

/-- The class of a number. -/
def ofNumber? : Nat → Option ResourceClass
  | 0 => some .srv
  | 1 => some .uav
  | 2 => some .cBuffer
  | 3 => some .sampler
  | _ => none

/-- The element type of a handle of the class. -/
def elem : ResourceClass → ElemType
  | .srv => .readOnlyResource
  | .uav => .readWriteResource
  | .cBuffer => .constantBlock
  | .sampler => .sampler

/-- The class that a handle of an element type belongs to. -/
def ofElem? : ElemType → Option ResourceClass
  | .readOnlyResource => some .srv
  | .readWriteResource => some .uav
  | .constantBlock => some .cBuffer
  | .sampler => some .sampler
  | _ => none

/-- The descriptor category of the class. -/
def category : ResourceClass → DescriptorCategory
  | .srv => .readOnlyResource
  | .uav => .readWriteResource
  | .cBuffer => .constantBlock
  | .sampler => .sampler

theorem ofElem?_elem (c : ResourceClass) : ofElem? c.elem = some c := by cases c <;> rfl

end ResourceClass

/-! ## Shapes -/

/-- The shape of a resource. -/
inductive ResourceKind
  | invalid | texture1D | texture2D | texture2DMS | texture3D | textureCube | texture1DArray
  | texture2DArray | texture2DMSArray | textureCubeArray | typedBuffer | rawBuffer
  | structuredBuffer | cBuffer | sampler | structuredBufferWithCounter
deriving DecidableEq, Repr, Inhabited

instance : Named ResourceKind where
  listing := [
    (.invalid, "Invalid"), (.texture1D, "Texture1D"), (.texture2D, "Texture2D"),
    (.texture2DMS, "Texture2DMS"), (.texture3D, "Texture3D"), (.textureCube, "TextureCube"),
    (.texture1DArray, "Texture1DArray"), (.texture2DArray, "Texture2DArray"),
    (.texture2DMSArray, "Texture2DMSArray"), (.textureCubeArray, "TextureCubeArray"),
    (.typedBuffer, "TypedBuffer"), (.rawBuffer, "RawBuffer"),
    (.structuredBuffer, "StructuredBuffer"), (.cBuffer, "CBuffer"), (.sampler, "Sampler"),
    (.structuredBufferWithCounter, "StructuredBufferWithCounter")]

namespace ResourceKind

/-- The shape of a number; an unknown number is invalid. -/
def ofNumber : Nat → ResourceKind
  | 1 => .texture1D
  | 2 => .texture2D
  | 3 => .texture2DMS
  | 4 => .texture3D
  | 5 => .textureCube
  | 6 => .texture1DArray
  | 7 => .texture2DArray
  | 8 => .texture2DMSArray
  | 9 => .textureCubeArray
  | 10 => .typedBuffer
  | 11 => .rawBuffer
  | 12 => .structuredBuffer
  | 13 => .cBuffer
  | 14 => .sampler
  | 17 => .structuredBufferWithCounter
  | _ => .invalid

/-- Whether the elements are structures with a stride of their own. -/
def isStructured : ResourceKind → Bool
  | .structuredBuffer | .structuredBufferWithCounter => true
  | _ => false

/-- Whether the elements have a component type and count: textures and typed buffers. -/
def isTyped : ResourceKind → Bool
  | .texture1D | .texture2D | .texture2DMS | .texture3D | .textureCube | .texture1DArray
  | .texture2DArray | .texture2DMSArray | .textureCubeArray | .typedBuffer => true
  | _ => false

end ResourceKind

/-! ## Components and samplers -/

/-- The declared type of a resource's components. -/
inductive ComponentKind
  | invalid | i1 | i16 | u16 | i32 | u32 | i64 | u64 | f16 | f32 | f64
  | sNormF16 | uNormF16 | sNormF32 | uNormF32 | sNormF64 | uNormF64
deriving DecidableEq, Repr, Inhabited

instance : Named ComponentKind where
  listing := [
    (.invalid, "Invalid"), (.i1, "I1"), (.i16, "I16"), (.u16, "U16"), (.i32, "I32"), (.u32, "U32"),
    (.i64, "I64"), (.u64, "U64"), (.f16, "F16"), (.f32, "F32"), (.f64, "F64"),
    (.sNormF16, "SNormF16"), (.uNormF16, "UNormF16"), (.sNormF32, "SNormF32"),
    (.uNormF32, "UNormF32"), (.sNormF64, "SNormF64"), (.uNormF64, "UNormF64")]

namespace ComponentKind

/-- The component type of a number; an unknown number is invalid. -/
def ofNumber : Nat → ComponentKind
  | 1 => .i1
  | 2 => .i16
  | 3 => .u16
  | 4 => .i32
  | 5 => .u32
  | 6 => .i64
  | 7 => .u64
  | 8 => .f16
  | 9 => .f32
  | 10 => .f64
  | 11 => .sNormF16
  | 12 => .uNormF16
  | 13 => .sNormF32
  | 14 => .uNormF32
  | 15 => .sNormF64
  | 16 => .uNormF64
  | _ => .invalid

/-- The element type in which a shader sees the component. -/
def elem : ComponentKind → ElemType
  | .invalid => .unknown
  | .i1 => .bool
  | .i16 => .sShort
  | .u16 => .uShort
  | .i32 => .sInt
  | .u32 => .uInt
  | .i64 => .sLong
  | .u64 => .uLong
  | .f16 | .sNormF16 | .uNormF16 => .half
  | .f32 | .sNormF32 | .uNormF32 => .float
  | .f64 | .sNormF64 | .uNormF64 => .double

end ComponentKind

/-- How a sampler compares. -/
inductive SamplerMode
  | standard | comparison | mono
deriving DecidableEq, Repr, Inhabited

instance : Named SamplerMode where
  listing := [(.standard, "Default"), (.comparison, "Comparison"), (.mono, "Mono")]

/-- The channel that a gather reads. -/
inductive GatherChannel
  | red | green | blue | alpha
deriving DecidableEq, Repr, Inhabited

instance : Named GatherChannel where
  listing := [(.red, "Red"), (.green, "Green"), (.blue, "Blue"), (.alpha, "Alpha")]

/-- The channel of a number; an unknown number means red. -/
def GatherChannel.ofNumber : Nat → GatherChannel
  | 1 => .green
  | 2 => .blue
  | 3 => .alpha
  | _ => .red

end Lockstep
