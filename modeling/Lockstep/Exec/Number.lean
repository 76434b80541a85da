import Lockstep.Exec.Operand

set_option autoImplicit false

/-! # Arithmetic, comparisons and casts

These instructions work component by component and change nothing but their result. Integers have no
sign of their own; the opcode says how they are read. -/

namespace Lockstep

namespace Opcode

/-- The integer operation of an opcode. -/
def intOp? : Opcode → Option IntOp
  | .add => some .add
  | .sub => some .sub
  | .mul => some .mul
  | .uDiv => some .uDiv
  | .sDiv => some .sDiv
  | .uRem => some .uRem
  | .sRem => some .sRem
  | .and => some .and
  | .or => some .or
  | .xor => some .xor
  | .shiftLeft => some .shl
  | .logicalShiftRight => some .lShr
  | .arithShiftRight => some .aShr
  | _ => none

/-- The float operation of an opcode. -/
def floatOp? : Opcode → Option FloatOp
  | .fAdd => some .add
  | .fSub => some .sub
  | .fMul => some .mul
  | .fDiv => some .div
  | .fRem => some .rem
  | _ => none

/-- What a float comparison says of two floats in a given order; `none` is the order of a NaN. -/
def floatHolds? (op : Opcode) (o : Option Ordering) : Option Bool :=
  match op with
  | .fOrdFalse => some false
  | .fOrdTrue => some true
  | .fOrd => some o.isSome
  | .fUnord => some o.isNone
  | .fOrdEqual => some (o == some .eq)
  | .fOrdGreater => some (o == some .gt)
  | .fOrdGreaterEqual => some (o == some .gt || o == some .eq)
  | .fOrdLess => some (o == some .lt)
  | .fOrdLessEqual => some (o == some .lt || o == some .eq)
  | .fOrdNotEqual => some (o == some .lt || o == some .gt)
  | .fUnordEqual => some (o.isNone || o == some .eq)
  | .fUnordGreater => some (o.isNone || o == some .gt)
  | .fUnordGreaterEqual => some (o != some .lt)
  | .fUnordLess => some (o.isNone || o == some .lt)
  | .fUnordLessEqual => some (o != some .gt)
  | .fUnordNotEqual => some (o != some .eq)
  | _ => none

/-- What an integer comparison says of two components of `bits` bits. -/
def intHolds? (op : Opcode) (bits : Nat) (a b : UInt64) : Option Bool :=
  let ua := a &&& mask bits
  let ub := b &&& mask bits
  let sa := signExtend a bits
  let sb := signExtend b bits
  match op with
  | .iEqual => some (ua == ub)
  | .iNotEqual => some (ua != ub)
  | .uGreater => some (ub < ua)
  | .uGreaterEqual => some (ub ≤ ua)
  | .uLess => some (ua < ub)
  | .uLessEqual => some (ua ≤ ub)
  | .sGreater => some (sb < sa)
  | .sGreaterEqual => some (sb ≤ sa)
  | .sLess => some (sa < sb)
  | .sLessEqual => some (sa ≤ sb)
  | _ => none

end Opcode

/-- Set every component by a function that may not be defined; it has to be defined only when there
    is a component. -/
def Variable.fillOr (v : Variable) (fault : Fault) (f : Nat → Option UInt64) :
    Except Fault Variable :=
  if (List.range v.compCount).all fun c => (f c).isSome then .ok (v.fill fun c => (f c).getD 0)
  else .error fault

namespace Lane

/-- Integer and float arithmetic. -/
def arithmetic (l : Lane) (i : Instr) : Except Fault Effect := do
  let (id, result) ← i.blank
  let a ← l.arg i 0
  let b ← l.arg i 1
  match i.op.intOp? with
  | some op =>
    if !i.ty.isInt then throw (.type (.opOnResult i.op i.ty))
    return .value id (result.fill fun c => op.apply i.ty.scalarBits (a.get c) (b.get c))
  | none =>
    match i.op.floatOp? with
    | some op =>
      let v ← result.fillOr (.type (.opOnElem i.op result.elem)) fun c =>
        result.elem.floatOp? op (a.get c) (b.get c)
      return .value id v
    | none => throw (.unsupportedOpcode i.op)

/-- Integer and float comparisons; the type of the first operand decides which. -/
def compare (l : Lane) (i : Instr) : Except Fault Effect := do
  let (id, result) ← i.blank
  let a ← l.arg i 0
  let b ← l.arg i 1
  let v ← result.fillOr (.type (.opOnOperands i.op a.elem)) fun c =>
    let hit :=
      if a.elem.isFloat then
        i.op.floatHolds? ((a.elem.decode (a.get c)).order? (b.elem.decode (b.get c)))
      else i.op.intHolds? a.elem.bits (a.get c) (b.get c)
    hit.map fun h => if h then 1 else 0
  return .value id v

/-- A float as an unsigned integer of a width; a value out of range goes to the nearer end. -/
def floatToUnsigned (v : FloatValue) (bits : Nat) : UInt64 :=
  if bits = 1 then (if v.order? (.finite false 0 0) == some .eq then 0 else 1)
  else (v.toUnsigned bits).toUInt64

/-- A float as a signed integer of a width, as zero-extended bits. -/
def floatToSigned (v : FloatValue) (bits : Nat) : UInt64 :=
  if bits = 1 then (if v.order? (.finite false 0 0) == some .eq then 0 else 1)
  else (Int64.ofInt (v.toSigned bits)).toUInt64 &&& mask bits

/-- A component cast from one element type to another. -/
def castComp? (op : Opcode) (src dst : ElemType) (v : UInt64) : Option UInt64 :=
  match op with
  | .trunc | .ptrToI | .iToPtr => some (v &&& mask dst.bits)
  | .zExt => some (v &&& mask src.bits)
  | .sExt => some ((signExtend v src.bits).toUInt64 &&& mask dst.bits)
  | .fToU => some (floatToUnsigned (src.decode v) dst.bits)
  | .fToS => some (floatToSigned (src.decode v) dst.bits)
  | .uToF => some (dst.ofDouble (FloatFormat.double.ofInt (v &&& mask src.bits).toNat))
  | .sToF => some (dst.ofDouble (FloatFormat.double.ofInt (signExtend v src.bits).toInt))
  | .fpTrunc | .fpExt => some (dst.ofDouble (src.toDouble v))
  | _ => none

/-- Casts of width, sign and representation. A bit cast reads the operand's bytes in the shape of
    the result. -/
def cast (l : Lane) (i : Instr) : Except Fault Effect := do
  let (id, result) ← i.blank
  let a ← l.arg i 0
  if i.op = .bitcast then
    let bytes := a.toBytes
    if bytes.length ≠ i.ty.byteSize then throw (.type (.bitcast bytes.length i.ty))
    return .value id (result.ofBytes bytes)
  let v ← result.fillOr (.unsupportedOpcode i.op) fun c =>
    castComp? i.op a.elem result.elem (a.get c)
  return .value id v

end Lane

end Lockstep
