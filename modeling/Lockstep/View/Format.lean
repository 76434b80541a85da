import Lockstep.Normalized
import Lockstep.ElemType
import Lockstep.Bytes

set_option autoImplicit false

/-! # View formats

The format of a buffer or texture view says how many components an element has and how the bytes of
each are read. Decoding goes to a wide form in which float and normalised components are
single-precision patterns, narrow integers are extended to 32 bits and 64-bit components keep their
bits; `ElemType.ofWide` and `ElemType.toWide` lead from there to the components of a shader value
and back. -/

namespace Lockstep

/-- How the bytes of a component are read. -/
inductive NumericKind
  /-- Decided by the shader's element type at each access. -/
  | typeless
  | float | uInt | sInt | uNorm | sNorm
deriving DecidableEq, Repr, Inhabited

instance : Named NumericKind where
  listing := [(.typeless, "Typeless"), (.float, "Float"), (.uInt, "UInt"), (.sInt, "SInt"),
    (.uNorm, "UNorm"), (.sNorm, "SNorm")]

/-- The layout of one element of a view. -/
structure ViewFormat where
  /-- The size of a component in bytes; 10 and 11 name the packed formats with 10, 10, 10 and 2, and
      with 11, 11 and 10 bits. -/
  byteWidth : UInt32 := 0
  numComps : UInt32 := 0
  kind : NumericKind := .typeless
  /-- The distance between elements in bytes. -/
  stride : UInt32 := 0
deriving DecidableEq, Repr, Inhabited

/-- The wide form of an element's four components. -/
abbrev Texel := Vector UInt64 4

namespace ViewFormat

/-- A format whose elements lie side by side. -/
def new (byteWidth numComps : UInt32) (kind : NumericKind) : ViewFormat :=
  { byteWidth, numComps, kind, stride := byteWidth * numComps }

/-- The size and reading of a component of an element type, when buffers can hold it. -/
def componentOf? : ElemType → Option (UInt32 × NumericKind)
  | .float => some (4, .float)
  | .double => some (8, .float)
  | .half => some (2, .float)
  | .sInt => some (4, .sInt)
  | .uInt => some (4, .uInt)
  | .sShort => some (2, .sInt)
  | .uShort => some (2, .uInt)
  | .sLong => some (8, .sInt)
  | .uLong => some (8, .uInt)
  | .sByte => some (1, .sInt)
  | .uByte => some (1, .uInt)
  | _ => none

/-- The format that holds values of an element type. -/
def ofElem? (t : ElemType) (numComps : UInt32) : Option ViewFormat :=
  (componentOf? t).map fun c => new c.1 numComps c.2

/-- Whether the wide components are floats. -/
def isFloatLike (f : ViewFormat) : Bool :=
  match f.kind with
  | .float | .uNorm | .sNorm => true
  | _ => false

/-- The number of components that an element really has. -/
def comps (f : ViewFormat) : Nat := min f.numComps.toNat 4

/-- The widths of the components of the packed format. -/
def packedBits (c : Nat) : Nat := if c = 3 then 2 else 10

/-- A component of the packed format. -/
def packedPart (word : UInt64) (c : Nat) : UInt64 :=
  (word >>> (10 * c).toUInt64) &&& mask (packedBits c)

/-! ## Decoding -/

/-- The wide form of a component of one or two bytes. -/
def widen (f : ViewFormat) (raw : UInt64) : UInt64 :=
  let bits := f.byteWidth.toNat * 8
  match f.kind with
  | .float => if f.byteWidth = 2 then FloatFormat.convert .half .single raw else raw
  | .uInt | .typeless => raw
  | .sInt => (signExtend raw bits).toUInt64 &&& 0xffffffff
  | .uNorm => Normalized.fromUnsigned raw.toUInt32 bits
  | .sNorm => Normalized.fromSigned (signExtend raw bits).toInt32 bits

/-- Components that lie side by side; a missing fourth one reads as one. -/
def decodeComps (f : ViewFormat) (read : Nat → UInt64) : Texel :=
  Vector.ofFn fun c =>
    if c.val < f.comps then read c.val
    else if c.val = 3 then (if f.isFloatLike then Normalized.one else 1)
    else 0

/-- Decode an element from the start of some bytes; missing bytes read as zero. -/
def decode (f : ViewFormat) (bytes : Bytes) : Texel :=
  match f.byteWidth.toNat with
  | 10 =>
    let word := bytes.wordAt 0 4
    match f.kind with
    | .uInt => Vector.ofFn fun c => packedPart word c.val
    | .uNorm => Vector.ofFn fun c =>
        Normalized.fromUnsigned (packedPart word c.val).toUInt32 (packedBits c.val)
    | _ => Vector.replicate 4 0
  | 8 => f.decodeComps fun c => bytes.wordAt (c * 8) 8
  | 4 => f.decodeComps fun c => bytes.wordAt (c * 4) 4
  | 2 => f.decodeComps fun c => f.widen (bytes.wordAt (c * 2) 2)
  | 1 => f.decodeComps fun c => f.widen (bytes.wordAt c 1)
  | _ => Vector.replicate 4 0

/-! ## Encoding -/

/-- The bits of a component of one or two bytes, from its wide form. -/
def narrow (f : ViewFormat) (wide : UInt64) : UInt64 :=
  let bits := f.byteWidth.toNat * 8
  let raw := match f.kind with
    | .float => if f.byteWidth = 2 then FloatFormat.convert .single .half wide else wide
    | .uInt | .typeless => wide
    | .sInt =>
      let v := wide.toUInt32.toInt32.toInt
      let high : Int := Nat.pow 2 (bits - 1)
      (Int64.ofInt (max (-high) (min v (high - 1)))).toUInt64
    | .uNorm => (Normalized.toUnsigned wide bits).toUInt64
    | .sNorm => (Normalized.toSigned wide bits).toInt64.toUInt64
  raw &&& mask bits

/-- Overwrite components that lie side by side; one that does not fit is left out. -/
def encodeComps (f : ViewFormat) (width : Nat) (word : Nat → UInt64) (bytes : Bytes) : Bytes :=
  (List.range f.comps).foldl (fun bs c => bs.setWordAt (c * width) width (word c)) bytes

/-- The packed word of four components. -/
def packed (part : Nat → UInt64) : UInt64 :=
  part 0 ||| (part 1 <<< 10) ||| (part 2 <<< 20) ||| (part 3 <<< 30)

/-- Encode an element over the start of some bytes. -/
def encode (f : ViewFormat) (texel : Texel) (bytes : Bytes) : Bytes :=
  let wide (c : Nat) : UInt64 := texel[c]?.getD 0
  match f.byteWidth.toNat with
  | 10 =>
    match f.kind with
    | .uInt => bytes.setWordAt 0 4 (packed fun c => wide c &&& mask (packedBits c))
    | .uNorm =>
      bytes.setWordAt 0 4
        (packed fun c => (Normalized.toUnsigned (wide c) (packedBits c)).toUInt64)
    | _ => bytes
  | 8 => f.encodeComps 8 wide bytes
  | 4 => f.encodeComps 4 wide bytes
  | 2 => f.encodeComps 2 (fun c => f.narrow (wide c)) bytes
  | 1 => f.encodeComps 1 (fun c => f.narrow (wide c)) bytes
  | _ => bytes

end ViewFormat

/-! ## Wide components and shader components -/

namespace ElemType

/-- The shader component of a wide component that was decoded from `byteWidth` bytes. -/
def ofWide (t : ElemType) (byteWidth : UInt32) (wide : UInt64) : UInt64 :=
  if byteWidth = 8 then wide
  else
    match t with
    | .half => FloatFormat.convert .single .half wide
    | .double => FloatFormat.convert .single .double wide
    | .sLong => (signExtend wide 32).toUInt64
    | _ => wide &&& mask t.bits

/-- The wide component of a shader component, to be encoded in `byteWidth` bytes. -/
def toWide (t : ElemType) (byteWidth : UInt32) (bits : UInt64) : UInt64 :=
  if byteWidth = 8 then bits
  else
    match t with
    | .half => FloatFormat.convert .half .single bits
    | .double => FloatFormat.convert .double .single bits
    | _ =>
      if t.isSigned then (signExtend bits t.bits).toUInt64 &&& 0xffffffff else bits &&& 0xffffffff

end ElemType

end Lockstep
