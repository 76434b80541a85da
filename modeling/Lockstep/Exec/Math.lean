import Lockstep.Exec.Number

set_option autoImplicit false

/-! # Mathematical intrinsics

The intrinsics that are computed exactly, without the host. Most work on the first component only,
because a program calls them once for each component of a vector. -/

namespace Lockstep

open FloatFormat (single double)

namespace Intrinsic

/-- The function of doubles behind an intrinsic that rounds, clamps or drops a sign. A NaN saturates
    to zero. -/
def onDouble? : Intrinsic → Option (UInt64 → UInt64)
  | .frc => some fun x => double.sub x (double.toIntegral .floor x)
  | .roundNe => some (double.toIntegral .nearestEven)
  | .roundNi => some (double.toIntegral .floor)
  | .roundPi => some (double.toIntegral .ceil)
  | .roundZ => some (double.toIntegral .trunc)
  | .fAbs => some double.abs
  | .saturate => some fun x => double.min (double.max x 0) (double.ofInt 1)
  | _ => none

/-- What an intrinsic that classifies floats tests a component for. -/
def classify? : Intrinsic → Option (ElemType → UInt64 → Bool)
  | .isNaN => some fun elem bits => (elem.decode bits).isNaN
  | .isInf => some fun elem bits => (elem.decode bits).isInf
  | .isFinite => some fun elem bits => (elem.decode bits).isFinite
  | .isNormal => some fun elem bits => elem.floatFormat.isNormal bits
  | _ => none

/-- The integer operation of an intrinsic of two operands. -/
def intOp? : Intrinsic → Option IntOp
  | .iMin => some .sMin
  | .iMax => some .sMax
  | .uMin => some .uMin
  | .uMax => some .uMax
  | .uDiv => some .uDiv
  | .iMul | .uMul => some .mul
  | _ => none

/-- The number of components of a dot product. -/
def dotSize? : Intrinsic → Option Nat
  | .dot2 => some 2
  | .dot3 => some 3
  | .dot4 => some 4
  | _ => none

/-- A bit position as a result, all ones when there is none. -/
def positionBits (position : Option Nat) : UInt64 :=
  match position with
  | some p => p.toUInt64
  | none => mask 32

/-- What an intrinsic on bits makes of an integer of a width. The searches look at 32 bits; the
    signed one looks for the first bit that differs from the sign. -/
def onBits? : Intrinsic → Option (Nat → UInt64 → UInt64)
  | .firstbitLo => some fun _ v => positionBits (lowestBit? v.toUInt32)
  | .firstbitHi => some fun _ v => positionBits (highestBit? v.toUInt32)
  | .firstbitSHi => some fun bits v =>
    let w := (signExtend v bits).toUInt64.toUInt32
    positionBits (highestBit? (if w.toInt32 < 0 then ~~~w else w))
  | .bfrev => some fun bits v => reverseBits v bits
  | .countbits => some fun _ v => (countOnes v).toUInt64
  | _ => none

end Intrinsic

namespace ElemType

/-- `a * b + c` at the type's own precision, each operation rounded. -/
def mulAdd? (t : ElemType) (a b c : UInt64) : Option UInt64 :=
  (t.floatOp? .mul a b).bind fun ab => t.floatOp? .add ab c

/-- `a * b + c`, fused in double precision and then rounded to the type. -/
def fusedMulAdd? (t : ElemType) (a b c : UInt64) : Option UInt64 :=
  t.floatFormat?.map fun _ =>
    t.ofDouble (FloatFormat.double.fma (t.toDouble a) (t.toDouble b) (t.toDouble c))

/-- `acc + a * b` of floats or of integers, each operation rounded or cut to the width. -/
def accumulate? (t : ElemType) (acc a b : UInt64) : Option UInt64 :=
  if t.isInteger then some (IntOp.add.apply t.bits (IntOp.mul.apply t.bits a b) acc)
  else (t.floatOp? .mul a b).bind (t.floatOp? .add acc)

end ElemType

namespace Lane

/-- Intrinsics of one float operand. -/
def roundMath (l : Lane) (i : Instr) (op : Intrinsic) (fn : UInt64 → UInt64) :
    Except Fault Effect := do
  let (id, result) ← i.blank
  let a ← l.arg i 0
  let v ← result.fillOr (.type (.intrinsicOnElem op a.elem)) fun c => a.elem.mapDouble? fn (a.get c)
  return .value id v

/-- Intrinsics that say of what kind a float is. -/
def classifyMath (l : Lane) (i : Instr) (op : Intrinsic) (test : ElemType → UInt64 → Bool) :
    Except Fault Effect := do
  let (id, result) ← i.blank
  let a ← l.arg i 0
  if !a.elem.isFloat then throw (.type (.intrinsicOnElem op a.elem))
  return .value id (result.set 0 (if test a.elem (a.get 0) then 1 else 0))

/-- Intrinsics of two integer operands. -/
def intMath (l : Lane) (i : Instr) (op : IntOp) : Except Fault Effect := do
  let (id, result) ← i.blank
  let a ← l.arg i 0
  let b ← l.arg i 1
  return .value id (result.set 0 (op.apply a.elem.bits (a.get 0) (b.get 0)))

/-- Minimum and maximum of floats. -/
def floatMath (l : Lane) (i : Instr) (op : Intrinsic) (floatOp : FloatOp) :
    Except Fault Effect := do
  let (id, result) ← i.blank
  let a ← l.arg i 0
  let b ← l.arg i 1
  match a.elem.floatOp? floatOp (a.get 0) (b.get 0) with
  | some w => return .value id (result.set 0 w)
  | none => throw (.type (.intrinsicOnElem op a.elem))

/-- Multiplication and addition of floats. -/
def floatMulAdd (l : Lane) (i : Instr) (op : Intrinsic) : Except Fault Effect := do
  let (id, result) ← i.blank
  let a ← l.arg i 0
  let b ← l.arg i 1
  let c ← l.arg i 2
  let sum :=
    if op = .fma then a.elem.fusedMulAdd? (a.get 0) (b.get 0) (c.get 0)
    else a.elem.mulAdd? (a.get 0) (b.get 0) (c.get 0)
  match sum with
  | some w => return .value id (result.set 0 w)
  | none => throw (.type (.intrinsicOnElem op a.elem))

/-- Multiplication and addition of integers. -/
def intMulAdd (l : Lane) (i : Instr) : Except Fault Effect := do
  let (id, result) ← i.blank
  let a ← l.arg i 0
  let b ← l.arg i 1
  let c ← l.arg i 2
  let bits := a.elem.bits
  let ab := IntOp.mul.apply bits (a.get 0) (b.get 0)
  return .value id (result.set 0 (IntOp.add.apply bits ab (c.get 0)))

/-- The sum of products of operands from number `c` on, `count` of them; the second factors follow
    the `size` first ones. -/
def dotFrom (l : Lane) (i : Instr) (op : Intrinsic) (elem : ElemType) (size : Nat) (acc : UInt64) :
    (c count : Nat) → Except Fault UInt64
  | _, 0 => .ok acc
  | c, n + 1 => do
    let a ← l.argWord i c
    let b ← l.argWord i (size + c)
    match elem.accumulate? acc a b with
    | some acc => l.dotFrom i op elem size acc (c + 1) n
    | none => throw (.type (.intrinsicOnElem op elem))

/-- Dot products, in the element type of the result. -/
def dot (l : Lane) (i : Instr) (op : Intrinsic) (size : Nat) : Except Fault Effect := do
  let (id, result) ← i.blank
  return .value id (result.set 0 (← l.dotFrom i op result.elem size 0 0 size))

/-- Intrinsics on the bits of an integer. -/
def bitMath (l : Lane) (i : Instr) (op : Intrinsic) (fn : Nat → UInt64 → UInt64) :
    Except Fault Effect := do
  let (id, result) ← i.blank
  let a ← l.arg i 0
  if !a.elem.isInteger then throw (.type (.intrinsicOnElem op a.elem))
  let bits := a.elem.bits
  return .value id (result.setIntComp 0 (fn bits (a.get 0 &&& mask bits)))

/-- A double from its low and its high half. -/
def makeDouble (l : Lane) (i : Instr) : Except Fault Effect := do
  let (id, result) ← i.blank
  let low ← l.argWord32 i 0
  let high ← l.argWord32 i 1
  return .value id (result.set 0 (low.toUInt64 ||| (high.toUInt64 <<< 32)))

/-- The low and the high half of a double, as the members of the result or as its components. -/
def splitDouble (l : Lane) (i : Instr) : Except Fault Effect := do
  let (id, result) ← i.blank
  let bits ← l.argWord i 0
  let low := bits &&& mask 32
  let high := bits >>> 32
  match result.members with
  | first :: second :: rest =>
    return .value id { result with members := first.set 0 low :: second.set 0 high :: rest }
  | _ => return .value id ((result.set 0 low).set 1 high)

/-- A float rounded to half precision, as an integer. -/
def toHalfBits (l : Lane) (i : Instr) : Except Fault Effect := do
  let (id, result) ← i.blank
  let v ← l.argSingle i 0
  return .value id (result.setIntComp 0 (FloatFormat.convert .single .half v))

/-- A half given as an integer, as a float. -/
def ofHalfBits (l : Lane) (i : Instr) : Except Fault Effect := do
  let (id, result) ← i.blank
  let h ← l.argWord32 i 0
  return .value id (result.set 0 (FloatFormat.convert .half .single (h.toUInt64 &&& mask 16)))

/-- Mathematical intrinsics that are not of one of the larger families. -/
def otherMath? (l : Lane) (i : Instr) : Intrinsic → Option (Except Fault Effect)
  | .fMin => some (l.floatMath i .fMin .min)
  | .fMax => some (l.floatMath i .fMax .max)
  | .fMad => some (l.floatMulAdd i .fMad)
  | .fma => some (l.floatMulAdd i .fma)
  | .iMad | .uMad => some (l.intMulAdd i)
  | .makeDouble => some (l.makeDouble i)
  | .splitDouble => some (l.splitDouble i)
  | .legacyF32ToF16 => some (l.toHalfBits i)
  | .legacyF16ToF32 => some (l.ofHalfBits i)
  | _ => none

/-- Mathematical intrinsics that need no host; `none` when the intrinsic is not one of them. -/
def math? (l : Lane) (i : Instr) (op : Intrinsic) : Option (Except Fault Effect) :=
  op.onDouble?.map (l.roundMath i op)
    <|> op.classify?.map (l.classifyMath i op)
    <|> op.intOp?.map (l.intMath i)
    <|> op.dotSize?.map (l.dot i op)
    <|> op.onBits?.map (l.bitMath i op)
    <|> l.otherMath? i op

end Lane

end Lockstep
