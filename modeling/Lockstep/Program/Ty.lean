import Lockstep.ElemType

set_option autoImplicit false

/-! # Types of the program model

Types are structural. A value takes the bytes of its parts without padding; a pointer has the size
and the element type of what it points to, because its value is shown as that. -/

namespace Lockstep

/-- Integer or float; integers have no sign, the operations choose one. -/
inductive ScalarKind
  | int | float
deriving DecidableEq, Repr, Inhabited

/-- Where a pointer points. -/
inductive AddressSpace
  | stack | device | constant | groupShared
deriving DecidableEq, Repr, Inhabited

instance : Named AddressSpace where
  listing := [(.stack, "Local"), (.device, "Device"), (.constant, "Constant"),
    (.groupShared, "GroupShared")]

/-- A type of the program model. -/
inductive Ty
  | void
  | label
  | scalar (kind : ScalarKind) (bits : Nat)
  | vector (elem : Ty) (count : Nat)
  | array (elem : Ty) (count : Nat)
  | struct (name : String) (members : List Ty)
  | pointer (pointee : Ty) (space : AddressSpace)
  | handle
deriving Repr, Inhabited

namespace Ty

/-- The integer type of a width. -/
def int (bits : Nat) : Ty := .scalar .int bits

/-- The float type of a width. -/
def float (bits : Nat) : Ty := .scalar .float bits

/-- The type of truth values. -/
def bool : Ty := int 1

/-- Whether the type is a single number. -/
def isScalar : Ty → Bool
  | .scalar .. => true
  | _ => false

/-- Whether the type is a pointer. -/
def isPointer : Ty → Bool
  | .pointer .. => true
  | _ => false

/-- The number type of a scalar or vector type. -/
def scalar? : Ty → Option Ty
  | .scalar kind bits => some (.scalar kind bits)
  | .vector elem _ => elem.scalar?
  | _ => none

/-- Whether the type is a float or a vector of floats. -/
def isFloat (t : Ty) : Bool :=
  match t.scalar? with
  | some (.scalar .float _) => true
  | _ => false

/-- Whether the type is an integer or a vector of integers. -/
def isInt (t : Ty) : Bool :=
  match t.scalar? with
  | some (.scalar .int _) => true
  | _ => false

/-- The width of the number type, zero when there is none. -/
def scalarBits (t : Ty) : Nat :=
  match t.scalar? with
  | some (.scalar _ bits) => bits
  | _ => 0

/-- The number of elements of a vector, one for any other type. -/
def elementCount : Ty → Nat
  | .vector _ count => count
  | _ => 1

/-- What a pointer type points to. -/
def pointee? : Ty → Option Ty
  | .pointer pointee _ => some pointee
  | _ => none

/-- The members of a structure type. -/
def structMembers? : Ty → Option (List Ty)
  | .struct _ members => some members
  | _ => none

mutual

/-- The number of bytes that a value of the type takes. -/
def layoutSize : Ty → Nat
  | .void | .label | .handle => 0
  | .scalar _ bits => (bits + 7) / 8
  | .vector elem count => elem.layoutSize * count
  | .array elem count => elem.layoutSize * count
  | .struct _ members => layoutSizes members
  | .pointer pointee _ => pointee.layoutSize

/-- The number of bytes that values of several types take together. -/
def layoutSizes : List Ty → Nat
  | [] => 0
  | t :: ts => t.layoutSize + layoutSizes ts

end

/-- The size of a value of the type as a 64-bit word. -/
def byteSize (t : Ty) : Nat := t.layoutSize % UInt64.size

/-- The element type of an integer of a width. -/
def intElem : Nat → ElemType
  | 1 => .bool
  | 8 => .sByte
  | 16 => .sShort
  | 32 => .sInt
  | 64 => .sLong
  | _ => .unknown

/-- The element type of a float of a width. -/
def floatElem : Nat → ElemType
  | 16 => .half
  | 32 => .float
  | 64 => .double
  | _ => .unknown

/-- The element type of the values of a type. -/
def elem : Ty → ElemType
  | .struct .. => .struct
  | .vector elem _ => elem.elem
  | .array elem _ => elem.elem
  | .pointer pointee _ => pointee.elem
  | .scalar .int bits => intElem bits
  | .scalar .float bits => floatElem bits
  | .void | .label | .handle => .unknown

/-- The type as text. -/
def text : Ty → String
  | .void => "void"
  | .label => "label"
  | .scalar .int bits => "i" ++ toString bits
  | .scalar .float 16 => "half"
  | .scalar .float 32 => "float"
  | .scalar .float 64 => "double"
  | .scalar .float bits => "f" ++ toString bits
  | .vector elem count => "<" ++ toString count ++ " x " ++ elem.text ++ ">"
  | .array elem count => "[" ++ toString count ++ " x " ++ elem.text ++ "]"
  | .struct name _ => "%" ++ name
  | .pointer pointee _ => pointee.text ++ "*"
  | .handle => "%dx.types.Handle"

end Ty

end Lockstep
