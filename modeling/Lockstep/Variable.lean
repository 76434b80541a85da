import Lockstep.Program.Ty
import Lockstep.Resource.Slot

set_option autoImplicit false

/-! # Shader values and variables

A `Value` has sixteen components, each the zero-extended bits of its element. A `Variable` is a
named, typed value: structures and arrays keep their elements as members, everything else is
`rows * columns` components. Reading a component that a value does not have gives zero, and writing
one does nothing. -/

namespace Lockstep

/-- The components of a value. -/
structure Value where
  comps : Vector UInt64 16
deriving DecidableEq, Repr

namespace Value

/-- The value whose components are all zero. -/
def zero : Value := ⟨Vector.replicate 16 0⟩

instance : Inhabited Value := ⟨zero⟩

/-- The bits of a component; zero past the last. -/
def get (v : Value) (c : Nat) : UInt64 := v.comps[c]?.getD 0

/-- Write a component; nothing past the last. -/
def set (v : Value) (c : Nat) (bits : UInt64) : Value := ⟨v.comps.setIfInBounds c bits⟩

/-- Write the first `n` components. -/
def fill (v : Value) (n : Nat) (f : Nat → UInt64) : Value :=
  ⟨Vector.ofFn fun i => if i.val < n then f i.val else v.comps[i]⟩

/-- The value whose first components are given. -/
def ofList (words : List UInt64) : Value := zero.fill words.length fun i => words[i]?.getD 0

theorem get_of_ge (v : Value) {c : Nat} (h : 16 ≤ c) : v.get c = 0 := by
  simp [get, Vector.getElem?_eq_none h]

theorem get_zero (c : Nat) : zero.get c = 0 := by
  by_cases h : c < 16 <;> simp [get, zero, h]

theorem get_set_self (v : Value) {c : Nat} (h : c < 16) (bits : UInt64) :
    (v.set c bits).get c = bits := by
  simp [get, set, h]

theorem get_set_of_ne (v : Value) {c d : Nat} (h : d ≠ c) (bits : UInt64) :
    (v.set c bits).get d = v.get d := by
  simp [get, set, Vector.getElem?_setIfInBounds_ne h.symm]

/-- A filled value has the given components first and keeps the others. -/
theorem get_fill (v : Value) (n : Nat) (f : Nat → UInt64) (c : Nat) :
    (v.fill n f).get c = if c < n ∧ c < 16 then f c else v.get c := by
  by_cases h : c < 16
  · simp [get, fill, h]
  · simp [get, fill, h]

end Value

/-! ## Variables -/

/-- A named, typed value. -/
structure Variable where
  name : String := ""
  elem : ElemType := .unknown
  rows : UInt8 := 0
  columns : UInt8 := 0
  value : Value := .zero
  members : List Variable := []
  slot : Option Slot := none
deriving Repr, Inhabited

namespace Variable

/-- The empty variable. -/
def empty : Variable := {}

/-- A variable of one row whose components are zero. -/
def row (name : String) (elem : ElemType) (columns : UInt8) : Variable :=
  { name, elem, rows := 1, columns }

/-- A variable of one component, cut to the width of its type. -/
def scalar (name : String) (elem : ElemType) (bits : UInt64) : Variable :=
  { row name elem 1 with value := Value.zero.set 0 (bits &&& mask elem.bits) }

/-- A variable of one row with given components. -/
def ofWords (name : String) (elem : ElemType) (words : List UInt64) : Variable :=
  { row name elem words.length.toUInt8 with value := Value.ofList words }

/-- A named list of members. -/
def aggregate (name : String) (members : List Variable) : Variable :=
  { name, elem := .struct, members }

/-- The handle of a resource bound to a slot. -/
def handle (name : String) (elem : ElemType) (slot : Slot) : Variable :=
  { row name elem 1 with slot := some slot }

mutual

/-- The zero of a type. A pointer has the shape of what it points to; a structure has one member for
    each field, called `_child0`, `_child1` and so on; an array has one for each element. -/
def zeroed (name : String) : Ty → Variable
  | .pointer pointee _ => zeroed name pointee
  | .struct _ members => aggregate name (zeroedFields 0 members)
  | .array elem count =>
    { name, elem := elem.elem, rows := count.toUInt8, columns := 1,
      members := (List.range count).map fun i => zeroed (name ++ "[" ++ toString i ++ "]") elem }
  | .vector elem count => row name elem.elem count.toUInt8
  | .handle => row name .unknown 1
  | .void => row name .unknown 1
  | .label => row name .unknown 1
  | .scalar kind bits => row name (Ty.scalar kind bits).elem 1

/-- The zeros of fields that are numbered from `i` on. -/
def zeroedFields (i : Nat) : List Ty → List Variable
  | [] => []
  | t :: ts => zeroed ("_child" ++ toString i) t :: zeroedFields (i + 1) ts

end

/-- Whether the variable is a structure or has members. -/
def isAggregate (v : Variable) : Bool := !v.members.isEmpty || v.elem == .struct

/-- The number of components. -/
def compCount (v : Variable) : Nat := v.rows.toNat * v.columns.toNat

/-- The bits of a component. -/
def get (v : Variable) (c : Nat) : UInt64 := v.value.get c

/-- Write the bits of a component. -/
def set (v : Variable) (c : Nat) (bits : UInt64) : Variable :=
  { v with value := v.value.set c bits }

/-- Write all components. -/
def fill (v : Variable) (f : Nat → UInt64) : Variable :=
  { v with value := v.value.fill v.compCount f }

/-- The low 32 bits of a component. -/
def word32 (v : Variable) (c : Nat) : UInt32 := (v.get c).toUInt32

/-- A component as a double. -/
def floatComp (v : Variable) (c : Nat) : UInt64 := v.elem.toDouble (v.get c)

/-- Write a double, rounded to the variable's float type. -/
def setFloatComp (v : Variable) (c : Nat) (double : UInt64) : Variable :=
  v.set c (v.elem.ofDouble double)

/-- A component as a signed integer. -/
def intComp (v : Variable) (c : Nat) : Int64 := signExtend (v.get c) v.elem.bits

/-- Write an integer, cut to the variable's width. -/
def setIntComp (v : Variable) (c : Nat) (bits : UInt64) : Variable :=
  v.set c (bits &&& mask v.elem.bits)

/-- The variable under another name. -/
def withName (v : Variable) (name : String) : Variable := { v with name }

/-- The first member of a name. -/
def member? (v : Variable) (name : String) : Option Variable := v.members.find? (·.name == name)

/-- Replace subnormal single-precision components by zeros. -/
def flushed (v : Variable) : Variable :=
  if v.elem = .float then v.fill fun c => v.elem.flush (v.get c) else v

/-- Whether some component of a float variable is a NaN or an infinity. -/
def hasNonFinite (v : Variable) : Bool :=
  v.elem.isFloat && (List.range v.compCount).any fun c => v.elem.isNonFinite (v.get c)

theorem get_of_ge (v : Variable) {c : Nat} (hc : 16 ≤ c) : v.get c = 0 := Value.get_of_ge v.value hc

theorem get_fill (v : Variable) (f : Nat → UInt64) {c : Nat} (hc : c < v.compCount) :
    (v.fill f).get c = if c < 16 then f c else 0 := by
  show (v.value.fill v.compCount f).get c = _
  rw [Value.get_fill]
  by_cases h : c < 16
  · rw [if_pos ⟨hc, h⟩, if_pos h]
  · rw [if_neg fun hlt => h hlt.2, if_neg h, Value.get_of_ge _ (Nat.le_of_not_lt h)]

/-- The components of a type's zero are zero. -/
theorem get_zeroed (name : String) (c : Nat) : (ty : Ty) → (zeroed name ty).get c = 0
  | .pointer pointee _ => by
    rw [zeroed]
    exact get_zeroed name c pointee
  | .array .. | .vector .. | .scalar .. | .struct .. | .handle | .void | .label => by
    rw [zeroed]
    exact Value.get_zero c

end Variable

/-- The values that the shader model gives each lane. -/
inductive Builtin
  | dispatchThreadIndex | groupIndex | groupThreadIndex | groupFlatIndex | primitiveIndex
  | viewIndex | instanceIndex | sampleIndex | msaaCoverage
deriving DecidableEq, Repr, Inhabited

instance : Named Builtin where
  listing := [
    (.dispatchThreadIndex, "DispatchThreadIndex"), (.groupIndex, "GroupIndex"),
    (.groupThreadIndex, "GroupThreadIndex"), (.groupFlatIndex, "GroupFlatIndex"),
    (.primitiveIndex, "PrimitiveIndex"), (.viewIndex, "ViewIndex"),
    (.instanceIndex, "InstanceIndex"), (.sampleIndex, "SampleIndex"),
    (.msaaCoverage, "MSAACoverage")]

end Lockstep
