import Lockstep.Named

set_option autoImplicit false

/-! # Integers of a given width inside 64-bit words

A component of a shader value is a 64-bit word that holds an integer of some width in its low bits,
the bits above being zero. The integers carry no sign; an operation decides whether it reads them as
signed. This file gives the mask and the sign extension of a width and the binary operations. -/

namespace Lockstep

/-- The word with the low `bits` bits set. -/
def mask (bits : Nat) : UInt64 :=
  if bits ≥ 64 then 0xffffffffffffffff else (1 <<< bits.toUInt64) - 1

/-- The low `bits` bits of a word read as a two's-complement number. A width of zero, or of 64 and
    more, reads the whole word. -/
def signExtend (v : UInt64) (bits : Nat) : Int64 :=
  if bits = 0 ∨ bits ≥ 64 then v.toInt64
  else (v <<< (64 - bits).toUInt64).toInt64 >>> (Int64.ofNat (64 - bits))

/-- The number of set bits. -/
def countOnes (v : UInt64) : Nat := ((List.range 64).filter fun i => v.toNat.testBit i).length

/-- The low `bits` bits in opposite order; the bits above are dropped. -/
def reverseBits (v : UInt64) (bits : Nat) : UInt64 :=
  (List.range (min bits 64)).foldl
    (fun acc i => if v.toNat.testBit i then acc ||| (1 <<< (bits - 1 - i).toUInt64) else acc) 0

/-- The position of the lowest set bit. -/
def lowestBit? (v : UInt32) : Option Nat := (List.range 32).find? fun i => v.toNat.testBit i

/-- The position of the highest set bit, counted down from bit 31. -/
def highestBit? (v : UInt32) : Option Nat := (List.range 32).find? fun i => v.toNat.testBit (31 - i)

/-! ## Binary operations -/

/-- A binary operation on integers of one width. -/
inductive IntOp
  | add | sub | mul | uDiv | sDiv | uRem | sRem | and | or | xor | shl | lShr | aShr
  | sMin | sMax | uMin | uMax
deriving DecidableEq, Repr, Inhabited

instance : Named IntOp where
  listing := [
    (.add, "Add"), (.sub, "Sub"), (.mul, "Mul"), (.uDiv, "UDiv"), (.sDiv, "SDiv"), (.uRem, "URem"),
    (.sRem, "SRem"), (.and, "And"), (.or, "Or"), (.xor, "Xor"), (.shl, "Shl"), (.lShr, "LShr"),
    (.aShr, "AShr"), (.sMin, "SMin"), (.sMax, "SMax"), (.uMin, "UMin"), (.uMax, "UMax")]

namespace IntOp

/-- The operation on words that are already cut to the width, before the result is cut. Division and
    remainder by zero set every bit; a shift amount counts modulo the width. -/
def raw (op : IntOp) (bits : Nat) (a b : UInt64) : UInt64 :=
  let sa := signExtend a bits
  let sb := signExtend b bits
  let shift : UInt64 := if bits = 0 then 0 else b % bits.toUInt64
  match op with
  | .add => a + b
  | .sub => a - b
  | .mul => a * b
  | .uDiv => if b = 0 then mask 64 else a / b
  | .uRem => if b = 0 then mask 64 else a % b
  | .sDiv => if sb = 0 then mask 64 else (sa / sb).toUInt64
  | .sRem => if sb = 0 then mask 64 else (sa % sb).toUInt64
  | .and => a &&& b
  | .or => a ||| b
  | .xor => a ^^^ b
  | .shl => a <<< shift
  | .lShr => a >>> shift
  | .aShr => (sa >>> shift.toInt64).toUInt64
  | .sMin => (if sb < sa then sb else sa).toUInt64
  | .sMax => (if sa < sb then sb else sa).toUInt64
  | .uMin => if b < a then b else a
  | .uMax => if a < b then b else a

/-- Apply an operation to two components of `bits` bits. Bits above the width do not count, and the
    result has none. -/
def apply (op : IntOp) (bits : Nat) (a b : UInt64) : UInt64 :=
  op.raw bits (a &&& mask bits) (b &&& mask bits) &&& mask bits

end IntOp

end Lockstep
