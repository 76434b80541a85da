import Lockstep.View.Format

set_option autoImplicit false

/-! # Elements of a view

A snapshot is the content of a buffer or texture together with the view through which a shader sees
it. `Snapshot.locate?` finds the bytes and the format of one element; an access that is unbound or
out of bounds finds none. All arithmetic on positions is on 64-bit words. -/

namespace Lockstep

/-- The view of a buffer or texture. -/
structure ViewInfo where
  /-- The first element of the view, in elements. -/
  firstElement : UInt32 := 0
  numElements : UInt32 := 0
  /-- Whether elements are addressed by byte. -/
  isByteBuffer : Bool := false
  isRootDescriptor : Bool := false
  format : ViewFormat := {}
deriving DecidableEq, Repr, Inhabited

/-- The content of a resource as it was fetched, and as the shader has changed it since. No data
    means that nothing is bound. -/
structure Snapshot where
  info : ViewInfo := {}
  data : Bytes := []
  /-- Whether elements are addressed by coordinates. -/
  isTexture : Bool := false
  rowPitch : UInt32 := 0
  depthPitch : UInt32 := 0
deriving DecidableEq, Repr, Inhabited

/-- How an access names an element. -/
inductive ElementAddress
  | buffer (index : UInt32) (offset : UInt64)
  | texel (x y z : UInt32)
deriving DecidableEq, Repr, Inhabited

/-- An element that was found. -/
structure Element where
  offset : Nat
  format : ViewFormat
  /-- The components that the access asked for; the format has those that the view holds. -/
  requested : UInt32
deriving DecidableEq, Repr, Inhabited

namespace Snapshot

/-- Whether something is bound. -/
def isBound (s : Snapshot) : Bool := !s.data.isEmpty

/-- The length of the data as a word. -/
def length (s : Snapshot) : UInt64 := s.data.length.toUInt64

/-- The format in which an access sees the elements: a typeless view takes the element type's. -/
def formatFor? (s : Snapshot) (elem : ElemType) (columns : UInt32) : Option ViewFormat :=
  let f := s.info.format
  if f.kind = .typeless then
    (ViewFormat.ofElem? elem columns).map fun g =>
      { f with
        byteWidth := g.byteWidth
        kind := g.kind
        numComps := columns
        stride := if f.stride = 0 then g.stride else f.stride }
  else some f

/-- The position of a buffer element, and its format cut to the whole components that are left in
    the view and in the data. A byte address counts in dwords, and the view's bounds are scaled to
    bytes. -/
def bufferElement? (s : Snapshot) (f : ViewFormat) (byByte : Bool) (index : UInt32)
    (byteOffset : UInt64) : Option (UInt64 × ViewFormat) :=
  let unit : UInt64 := if byByte then (min f.byteWidth 4).toUInt64 else 1
  let first := s.info.firstElement.toUInt64 * unit
  let count := s.info.numElements.toUInt64 * unit
  let index := if byByte then index.toUInt64 &&& ~~~3 else index.toUInt64
  if index ≥ count then none
  else
    let stride := f.stride.toUInt64
    let offset := byteOffset + (first + index) * stride
    if offset ≥ s.length then none
    else if f.byteWidth < 10 ∧ f.byteWidth > 0 then
      let width := f.byteWidth.toUInt64
      let stop := (first + count) * stride
      let inView := (if stop < offset then 0 else stop - offset) / width
      let fits := min ((s.length - offset) / width) inView
      some (offset, { f with numComps := min f.numComps fits.toUInt32 })
    else some (offset, f)

/-- The element that an access names. A stride given by an annotation of the handle comes before the
    view's own and before addressing by byte. -/
def locate? (s : Snapshot) (structStride : Option UInt32) (elem : ElemType) (columns : UInt32)
    (address : ElementAddress) : Option Element :=
  if s.data.isEmpty then none
  else
    (s.formatFor? elem columns).bind fun f =>
      let requested := f.numComps
      let f := { f with
        stride := structStride.getD (if s.info.isByteBuffer then 1 else f.stride) }
      let byByte := s.info.isByteBuffer && structStride.isNone
      if f.stride = 0 then none
      else
        match address with
        | .texel x y z =>
          if s.isTexture then
            let offset := x.toUInt64 * f.stride.toUInt64 + y.toUInt64 * s.rowPitch.toUInt64
              + z.toUInt64 * s.depthPitch.toUInt64
            if offset ≥ s.length then none
            else some { offset := offset.toNat, format := f, requested }
          else
            (s.bufferElement? f byByte x 0).map fun e =>
              { offset := e.1.toNat, format := e.2, requested }
        | .buffer index offset =>
          (s.bufferElement? f byByte index offset).map fun e =>
            { offset := e.1.toNat, format := e.2, requested }

/-- Decode an element that was found. -/
def decodeAt (s : Snapshot) (e : Element) : Texel := e.format.decode (s.data.drop e.offset)

/-- Encode components over an element that was found. -/
def encodeAt (s : Snapshot) (offset : Nat) (f : ViewFormat) (texel : Texel) : Snapshot :=
  { s with data := s.data.take offset ++ f.encode texel (s.data.drop offset) }

end Snapshot

end Lockstep
