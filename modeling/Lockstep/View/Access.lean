import Lockstep.View.Window
import Lockstep.Variable

set_option autoImplicit false

/-! # Access through a view

Loads, stores and atomic updates of one element of a snapshot, in the components of a shader. An
access that finds no element gives `none`: the caller reads zeros or drops the store. -/

namespace Lockstep

/-- Which element is accessed, and in which form. -/
structure ViewAccess where
  /-- The stride that an annotation of the handle sets. -/
  structStride : Option UInt32
  elem : ElemType
  columns : UInt32
  address : ElementAddress
deriving Repr, Inhabited

namespace Snapshot

/-- The element of an access. -/
def element? (s : Snapshot) (a : ViewAccess) : Option Element :=
  s.locate? a.structStride a.elem a.columns a.address

/-- Whether a component that was asked for lies outside of the view. -/
def isCut (e : Element) (c : Nat) : Bool :=
  e.format.numComps < e.requested && e.format.numComps.toNat ≤ c

/-- The components of an element; those outside of the view read as zero. -/
def load? (s : Snapshot) (a : ViewAccess) : Option Texel :=
  (s.element? a).map fun e =>
    let wide := s.decodeAt e
    Vector.ofFn fun c =>
      a.elem.ofWide e.format.byteWidth (if isCut e c.val then 0 else wide[c])

/-- Overwrite components of an element by the first components of values; where there is no value
    the component stays. -/
def store? (s : Snapshot) (a : ViewAccess) (values : Vector (Option Variable) 4) :
    Option Snapshot :=
  (s.element? a).map fun e =>
    let wide := s.decodeAt e
    let texel : Texel := Vector.ofFn fun c => match values[c] with
      | some v => v.elem.toWide e.format.byteWidth (v.get 0)
      | none => wide[c]
    s.encodeAt e.offset { e.format with numComps := min a.columns e.format.numComps } texel

/-- Replace the first component of an element by a function of it, and give what it was. -/
def update? (s : Snapshot) (a : ViewAccess) (f : UInt64 → UInt64) : Option (UInt64 × Snapshot) :=
  (s.element? a).map fun e =>
    let wide := s.decodeAt e
    let old := a.elem.ofWide e.format.byteWidth wide[0]
    let texel := wide.set 0 (a.elem.toWide e.format.byteWidth (f old))
    (old, s.encodeAt e.offset { e.format with numComps := 1 } texel)

end Snapshot

end Lockstep
