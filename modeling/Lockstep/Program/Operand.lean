import Lockstep.Program.Ty
import Lockstep.Bits
import Lockstep.Decimal

set_option autoImplicit false

/-! # Constants and operands

What an instruction works on: an identifier of the single-assignment form, a constant, a block, or
an undefined value. -/

namespace Lockstep

/-- An identifier: of a result, a global variable or an argument. -/
structure Id where
  index : Nat
deriving DecidableEq, Repr, Inhabited

/-- The identifier as text. -/
def Id.text (id : Id) : String := "%" ++ toString id.index

/-- A constant. The value of a float is a double whatever its width. -/
inductive Constant
  | int (bits : Nat) (value : UInt64)
  | float (bits : Nat) (value : UInt64)
  | vector (elems : List Constant)
  | aggregate (ty : Ty) (members : List Constant)
  | zero (ty : Ty)
deriving Repr, Inhabited

/-- An operand of an instruction. -/
inductive Operand
  | ref (id : Id)
  | const (c : Constant)
  | block (index : Nat)
  | undef (ty : Ty)
deriving Repr, Inhabited

namespace Constant

/-- The integer constant of a width, cut to it. -/
def ofInt (bits : Nat) (value : Int64) : Constant := .int bits (value.toUInt64 &&& mask bits)

/-- The truth value as a constant. -/
def ofBool (b : Bool) : Constant := .int 1 (if b then 1 else 0)

/-- The single-precision constant of a pattern. -/
def ofSingle (bits : UInt64) : Constant := .float 32 (FloatFormat.convert .single .double bits)

/-- The type of a constant. -/
def ty : Constant → Ty
  | .int bits _ => .int bits
  | .float bits _ => .float bits
  | .vector [] => .vector .void 0
  | .vector (c :: cs) => .vector c.ty (cs.length + 1)
  | .aggregate ty _ => ty
  | .zero ty => ty

/-- The integer that a scalar constant stands for. -/
def word? : Constant → Option UInt64
  | .int _ value => some value
  | .zero ty => if ty.isInt then some 0 else none
  | _ => none

mutual

-- Braces are written by their codes in all texts, since a plain one starts a term in a string that is interpolated.
/-- The constant as text. -/
def text : Constant → String
  | .int bits value => if bits = 1 then (if value = 0 then "false" else "true") else toString value
  | .float _ value => Decimal.render value
  | .vector elems => "<" ++ ", ".intercalate (texts elems) ++ ">"
  | .aggregate _ members => "\x7b" ++ ", ".intercalate (texts members) ++ "\x7d"
  | .zero _ => "zeroinitializer"

/-- The texts of several constants. -/
def texts : List Constant → List String
  | [] => []
  | c :: cs => c.text :: texts cs

end

end Constant

namespace Operand

/-- The identifier that the operand names. -/
def id? : Operand → Option Id
  | .ref id => some id
  | _ => none

/-- The block that the operand names. -/
def block? : Operand → Option Nat
  | .block b => some b
  | _ => none

/-- Whether the operand is a constant. -/
def isConst : Operand → Bool
  | .const _ => true
  | _ => false

/-- Whether the operand is undefined. -/
def isUndefined : Operand → Bool
  | .undef _ => true
  | _ => false

/-- What an undefined operand is called. -/
def undefinedName : String := "undef"

/-- The operand as text. -/
def text : Operand → String
  | .ref id => id.text
  | .const c => c.text
  | .block b => "label bb" ++ toString b
  | .undef _ => undefinedName

end Operand

end Lockstep
