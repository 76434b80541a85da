import Lockstep.Bits
import Lockstep.FloatFormat

set_option autoImplicit false

/-! # Normalised integers

A view may store a number of the unit interval as an unsigned integer of some width whose largest
value stands for one, or a number between minus one and one as a signed integer. The conversions
work in single precision, each operation rounded, and round half away from zero when they store. -/

namespace Lockstep

namespace Normalized

open FloatFormat (single)

/-- The single-precision pattern of one. -/
def one : UInt64 := 0x3f800000

/-- The single-precision pattern of minus one. -/
def minusOne : UInt64 := 0xbf800000

/-- The single-precision pattern of one half. -/
def oneHalf : UInt64 := 0x3f000000

/-- A pattern moved to the nearer end when it lies outside of two others; a NaN stays. -/
def clamp (v low high : UInt64) : UInt64 :=
  if (single.decode v).lt (single.decode low) then low
  else if (single.decode high).lt (single.decode v) then high
  else v

/-- The pattern of the largest value of a signed width. -/
def signedMax (bits : Nat) : UInt64 := mask ((bits + UInt32.size - 1) % UInt32.size)

/-- The number that an unsigned normalised integer stands for. -/
def fromUnsigned (v : UInt32) (bits : Nat) : UInt64 :=
  single.div (single.ofInt v.toNat) (single.ofInt (mask bits).toNat)

/-- The unsigned normalised integer nearest to a number. -/
def toUnsigned (v : UInt64) (bits : Nat) : UInt32 :=
  let scaled := single.mul (clamp v 0 one) (single.ofInt (mask bits).toNat)
  ((single.decode (single.add scaled oneHalf)).toUnsigned 32).toUInt32

/-- The number that a signed normalised integer stands for; the lowest two values both stand for
    minus one. -/
def fromSigned (v : Int32) (bits : Nat) : UInt64 :=
  let most := (signedMax bits).toUInt32.toInt32
  if v ≤ -most then minusOne
  else single.div (single.ofInt v.toInt) (single.ofInt most.toInt)

/-- The signed normalised integer nearest to a number. -/
def toSigned (v : UInt64) (bits : Nat) : Int32 :=
  let scaled := single.mul (clamp v minusOne one) (single.ofInt (signedMax bits).toNat)
  let nearest :=
    if (single.decode scaled).lt (single.decode 0) then single.sub scaled oneHalf
    else single.add scaled oneHalf
  Int32.ofInt ((single.decode nearest).toSigned 32)

end Normalized

end Lockstep
