import Lockstep.Variable
import Lockstep.Bytes

set_option autoImplicit false

/-! # Variables as bytes

A variable is laid out depth first: its members in order, or else its components, each in the bytes
of its element type, low byte first and without padding. `refill` reads bytes back into a variable's
own shape. -/

namespace Lockstep

namespace Variable

mutual

/-- The bytes of a variable. -/
def toBytes : Variable → Bytes
  | { elem, rows, columns, value, members, .. } =>
    if members.isEmpty then
      (List.range (rows.toNat * columns.toNat)).flatMap fun c =>
        Bytes.ofWord (value.get c) elem.byteSize
    else listToBytes members

/-- The bytes of several variables, one after another. -/
def listToBytes : List Variable → Bytes
  | [] => []
  | v :: vs => v.toBytes ++ listToBytes vs

end

mutual

/-- Read bytes into the variable's own shape, and say how many were used. A component whose bytes
    are not all present becomes zero. -/
def refill : Variable → Bytes → Variable × Nat
  | { name, elem, rows, columns, value, members, slot }, bytes =>
    if members.isEmpty then
      let count := rows.toNat * columns.toNat
      let width := elem.byteSize
      ({ name, elem, rows, columns, members, slot,
         value := value.fill count fun c => bytes.wordAt (c * width) width }, count * width)
    else
      let (members, used) := refillList members bytes
      ({ name, elem, rows, columns, value, members, slot }, used)

/-- Read bytes into several variables, one after another. -/
def refillList : List Variable → Bytes → List Variable × Nat
  | [], _ => ([], 0)
  | v :: vs, bytes =>
    let (v, used) := v.refill bytes
    let (vs, rest) := refillList vs (bytes.drop used)
    (v :: vs, used + rest)

end

/-- The variable with the content of some bytes. -/
def ofBytes (shape : Variable) (bytes : Bytes) : Variable := (shape.refill bytes).1

end Variable

end Lockstep
