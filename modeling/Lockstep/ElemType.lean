import Lockstep.Named
import Lockstep.Bits
import Lockstep.FloatFormat

set_option autoImplicit false

/-! # Element types

The type of one component of a shader value, and how the component's bits are read as a float: a
`half`, `float` or `double` component in its own format, any other as if it were single
precision. -/

namespace Lockstep

/-- The type of one component of a shader value. -/
inductive ElemType
  | unknown | bool | sByte | uByte | sShort | uShort | sInt | uInt | sLong | uLong
  | half | float | double | struct | gpuPointer
  | readOnlyResource | readWriteResource | sampler | constantBlock
deriving DecidableEq, Repr, Inhabited

instance : Named ElemType where
  listing := [
    (.unknown, "Unknown"), (.bool, "Bool"), (.sByte, "SByte"), (.uByte, "UByte"),
    (.sShort, "SShort"), (.uShort, "UShort"), (.sInt, "SInt"), (.uInt, "UInt"), (.sLong, "SLong"),
    (.uLong, "ULong"), (.half, "Half"), (.float, "Float"), (.double, "Double"),
    (.struct, "Struct"), (.gpuPointer, "GPUPointer"), (.readOnlyResource, "ReadOnlyResource"),
    (.readWriteResource, "ReadWriteResource"), (.sampler, "Sampler"),
    (.constantBlock, "ConstantBlock")]

namespace ElemType

/-- The size of one component in bytes. -/
def byteSize : ElemType → Nat
  | .double | .sLong | .uLong | .gpuPointer => 8
  | .half | .sShort | .uShort => 2
  | .bool | .sByte | .uByte => 1
  | _ => 4

/-- The width of one component in bits. -/
def bits : ElemType → Nat
  | .bool => 1
  | t => t.byteSize * 8

/-- Whether the components are floats. -/
def isFloat : ElemType → Bool
  | .half | .float | .double => true
  | _ => false

/-- Whether the components are integers with a sign. -/
def isSigned : ElemType → Bool
  | .sByte | .sShort | .sInt | .sLong => true
  | _ => false

/-- Whether the components are integers, truth values included. -/
def isInteger : ElemType → Bool
  | .bool | .sByte | .uByte | .sShort | .uShort | .sInt | .uInt | .sLong | .uLong => true
  | _ => false

/-- Whether the values are handles of resources. -/
def isHandle : ElemType → Bool
  | .readOnlyResource | .readWriteResource | .sampler | .constantBlock => true
  | _ => false

/-! ## Components as floats -/

/-- The format of a float type. -/
def floatFormat? : ElemType → Option FloatFormat
  | .half => some .half
  | .float => some .single
  | .double => some .double
  | _ => none

/-- The format in which a component of any type is read as a float. -/
def floatFormat (t : ElemType) : FloatFormat := t.floatFormat?.getD .single

/-- What a component stands for as a float. -/
def decode (t : ElemType) (bits : UInt64) : FloatValue := t.floatFormat.decode bits

/-- A component widened to double precision. -/
def toDouble (t : ElemType) (bits : UInt64) : UInt64 :=
  FloatFormat.convert t.floatFormat .double bits

/-- A component widened or narrowed to single precision. -/
def toSingle (t : ElemType) (bits : UInt64) : UInt64 :=
  FloatFormat.convert t.floatFormat .single bits

/-- A double rounded to a component of the type. Half precision is reached by way of single, which rounds twice: that is
    the route chosen here for a conversion that a library makes, and which can differ in the last bit where the library
    rounds at once. -/
def ofDouble (t : ElemType) (double : UInt64) : UInt64 :=
  match t with
  | .double => double
  | .half => FloatFormat.convert .single .half (FloatFormat.convert .double .single double)
  | _ => FloatFormat.convert .double .single double

/-- A binary float operation at the type's own precision. -/
def floatOp? (t : ElemType) (op : FloatOp) (a b : UInt64) : Option UInt64 :=
  t.floatFormat?.map fun f => op.apply f a b

/-- A function on doubles, applied to a float component and rounded back. -/
def mapDouble? (t : ElemType) (fn : UInt64 → UInt64) (a : UInt64) : Option UInt64 :=
  t.floatFormat?.map fun _ => t.ofDouble (fn (t.toDouble a))

/-- Replace a subnormal single-precision component by the zero of its sign; nothing else changes. -/
def flush (t : ElemType) (bits : UInt64) : UInt64 :=
  if t = .float ∧ bits &&& 0x7f800000 = 0 ∧ bits &&& 0x007fffff ≠ 0 then bits &&& 0x80000000
  else bits

/-- Whether a component is a NaN or an infinity. -/
def isNonFinite (t : ElemType) (bits : UInt64) : Bool := !(t.decode bits).isFinite

end ElemType

end Lockstep
