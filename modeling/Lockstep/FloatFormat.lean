import Lockstep.Named

set_option autoImplicit false

/-! # Binary floating point, exactly

A `FloatFormat` gives the widths of the exponent and fraction fields of a binary interchange format:
half, single and double precision are three such values. A bit pattern is decoded to a `FloatValue`,
which is a NaN, an infinity, or a sign, a natural number and a power of two. Every operation is
computed exactly on these and rounded once, to the nearest pattern with ties to the even one, so the
file uses no machine arithmetic and its results can be evaluated in proofs.

An operation on a NaN gives the first NaN operand made quiet; an invalid operation gives the quiet
NaN with the sign bit set and an otherwise empty payload. -/

namespace Lockstep

/-- The field widths of a binary interchange format. -/
structure FloatFormat where
  expBits : Nat
  fracBits : Nat
deriving DecidableEq, Repr, Inhabited

/-- What a bit pattern stands for; `finite neg mant exp` is `± mant * 2 ^ exp`. -/
inductive FloatValue
  | nan (neg : Bool) (payload : Nat)
  | inf (neg : Bool)
  | finite (neg : Bool) (mant : Nat) (exp : Int)
deriving DecidableEq, Repr, Inhabited

/-- A binary operation on floats of one format. -/
inductive FloatOp
  | add | sub | mul | div | rem | min | max
deriving DecidableEq, Repr, Inhabited

instance : Named FloatOp where
  listing := [(.add, "Add"), (.sub, "Sub"), (.mul, "Mul"), (.div, "Div"), (.rem, "Rem"),
    (.min, "Min"), (.max, "Max")]

/-- A direction in which a number is taken to an integral one. -/
inductive Integral
  | floor | ceil | trunc | nearestEven
deriving DecidableEq, Repr, Inhabited

/-! ## Values -/

/-- `m / 2 ^ k` to the nearest natural number, a tie to the even one. -/
def divPowTwoToEven (m k : Nat) : Nat :=
  let q := m >>> k
  let unit := Nat.pow 2 k
  let r := m % unit
  if 2 * r > unit ∨ (2 * r = unit ∧ q % 2 = 1) then q + 1 else q

namespace FloatValue

/-- Whether the value is a NaN. -/
def isNaN : FloatValue → Bool
  | nan .. => true
  | _ => false

/-- Whether the value is an infinity. -/
def isInf : FloatValue → Bool
  | inf _ => true
  | _ => false

/-- Whether the value is a number. -/
def isFinite : FloatValue → Bool
  | finite .. => true
  | _ => false

/-- The signed number `± mant`. -/
def signed (neg : Bool) (mant : Nat) : Int := if neg then -(mant : Int) else mant

/-- The value with the sign given by `f` of its sign. -/
def mapSign (f : Bool → Bool) : FloatValue → FloatValue
  | nan s p => nan (f s) p
  | inf s => inf (f s)
  | finite s m e => finite (f s) m e

/-- The order of two values; a NaN is in order with nothing, and the two zeros are equal. -/
def order? : FloatValue → FloatValue → Option Ordering
  | nan .., _ => none
  | _, nan .. => none
  | inf s, inf s' => some (compare s' s)
  | inf s, finite .. => some (if s then .lt else .gt)
  | finite .., inf s => some (if s then .gt else .lt)
  | finite s m e, finite s' m' e' =>
    let base := Min.min e e'
    some (compare (signed s (m <<< (e - base).toNat)) (signed s' (m' <<< (e' - base).toNat)))

/-- Whether the first value is less than the second. -/
def lt (a b : FloatValue) : Bool := a.order? b == some .lt

/-- The nearest integral value in a direction; the sign is kept, also of a result of zero. -/
def toIntegral (dir : Integral) : FloatValue → FloatValue
  | finite neg m e =>
    if e ≥ 0 then finite neg m e
    else
      let k := (-e).toNat
      let inexact := m % Nat.pow 2 k ≠ 0
      let q := m >>> k
      let q' := match dir with
        | .floor => if neg ∧ inexact then q + 1 else q
        | .ceil => if ¬ neg ∧ inexact then q + 1 else q
        | .trunc => q
        | .nearestEven => divPowTwoToEven m k
      finite neg q' 0
  | v => v

/-- The magnitude of a finite value without its fraction. -/
def truncated (m : Nat) (e : Int) : Nat := if e ≥ 0 then m <<< e.toNat else m >>> (-e).toNat

/-- The value as an unsigned integer of `bits` bits: the fraction is dropped, a value out of range
    goes to the nearer end, and a NaN to zero. -/
def toUnsigned (bits : Nat) : FloatValue → Nat
  | nan .. => 0
  | inf neg => if neg then 0 else Nat.pow 2 bits - 1
  | finite neg m e => if neg then 0 else Min.min (truncated m e) (Nat.pow 2 bits - 1)

/-- The value as a signed integer of `bits` bits, by the same rules as `toUnsigned`. -/
def toSigned (bits : Nat) : FloatValue → Int
  | nan .. => 0
  | inf neg => if neg then -(Nat.pow 2 (bits - 1) : Nat) else (Nat.pow 2 (bits - 1) - 1 : Nat)
  | finite neg m e =>
    if neg then -(Min.min (truncated m e) (Nat.pow 2 (bits - 1)) : Nat)
    else (Min.min (truncated m e) (Nat.pow 2 (bits - 1) - 1) : Nat)

end FloatValue

/-! ## Patterns -/

namespace FloatFormat

/-- Half precision. -/
def half : FloatFormat := ⟨5, 10⟩

/-- Single precision. -/
def single : FloatFormat := ⟨8, 23⟩

/-- Double precision. -/
def double : FloatFormat := ⟨11, 52⟩

/-- The width of a pattern in bits. -/
def width (f : FloatFormat) : Nat := 1 + f.expBits + f.fracBits

/-- The bias of the exponent field. -/
def bias (f : FloatFormat) : Nat := Nat.pow 2 (f.expBits - 1) - 1

/-- The exponent field of infinities and NaNs. -/
def expMax (f : FloatFormat) : Nat := Nat.pow 2 f.expBits - 1

/-- The exponent field of a pattern. -/
def expField (f : FloatFormat) (bits : UInt64) : Nat :=
  bits.toNat >>> f.fracBits % Nat.pow 2 f.expBits

/-- The fraction field of a pattern. -/
def fracField (f : FloatFormat) (bits : UInt64) : Nat := bits.toNat % Nat.pow 2 f.fracBits

/-- The sign bit of a pattern. -/
def signBit (f : FloatFormat) (bits : UInt64) : Bool := bits.toNat.testBit (f.width - 1)

/-- What a pattern stands for; bits above the width do not count. -/
def decode (f : FloatFormat) (bits : UInt64) : FloatValue :=
  let e := f.expField bits
  let m := f.fracField bits
  let neg := f.signBit bits
  if e = f.expMax then (if m = 0 then .inf neg else .nan neg m)
  else if e = 0 then .finite neg m (1 - (f.bias : Int) - f.fracBits)
  else .finite neg (m + Nat.pow 2 f.fracBits) (e - (f.bias : Int) - f.fracBits)

/-- A pattern from its sign and the fields below. -/
def pack (f : FloatFormat) (neg : Bool) (fields : Nat) : UInt64 :=
  (if neg then Nat.pow 2 (f.width - 1) + fields else fields).toUInt64

/-- The exponent and fraction fields of the pattern nearest to `m * 2 ^ e`; a carry out of the
    fraction goes into the exponent, and what is too large becomes an infinity. -/
def magnitude (f : FloatFormat) (m : Nat) (e : Int) : Nat :=
  if m = 0 then 0
  else
    let least : Int := 1 - (f.bias : Int)
    let lead := max (e + m.log2) least
    let quantum := lead - f.fracBits
    let mant :=
      if e ≥ quantum then m <<< (e - quantum).toNat else divPowTwoToEven m (quantum - e).toNat
    let unit := Nat.pow 2 f.fracBits
    min ((lead - least).toNat * unit + mant) (f.expMax * unit)

/-- The quiet NaN pattern with a sign and a payload. -/
def quietNaN (f : FloatFormat) (neg : Bool) (payload : Nat) : UInt64 :=
  let unit := Nat.pow 2 f.fracBits
  f.pack neg (f.expMax * unit + (payload % unit ||| Nat.pow 2 (f.fracBits - 1)))

/-- The result of an invalid operation. -/
def invalid (f : FloatFormat) : UInt64 := f.quietNaN true 0

/-- The pattern of a value, rounded to the nearest, a tie to the even pattern. -/
def encode (f : FloatFormat) : FloatValue → UInt64
  | .nan neg p => f.quietNaN neg p
  | .inf neg => f.pack neg (f.expMax * Nat.pow 2 f.fracBits)
  | .finite neg m e => f.pack neg (f.magnitude m e)

/-- The pattern nearest to a quotient `± n / d * 2 ^ e` with `d ≠ 0`: enough digits of the quotient
    are kept, and one more digit says whether something is left over. -/
def encodeQuotient (f : FloatFormat) (neg : Bool) (n d : Nat) (e : Int) : UInt64 :=
  let shift := f.fracBits + 3 + d.log2 - n.log2
  let scaled := n <<< shift
  let sticky := if scaled % d = 0 then 0 else 1
  f.encode (.finite neg (2 * (scaled / d) + sticky) (e - shift - 1))

/-- The pattern of an integer. -/
def ofInt (f : FloatFormat) (v : Int) : UInt64 := f.encode (.finite (v < 0) v.natAbs 0)

/-- Re-encode a pattern of one format in another. A NaN keeps its sign and the leading part of its
    payload. -/
def convert (src dst : FloatFormat) (bits : UInt64) : UInt64 :=
  match src.decode bits with
  | .nan neg p => dst.quietNaN neg (p <<< dst.fracBits >>> src.fracBits)
  | v => dst.encode v

/-- Whether a pattern is a normal number: neither zero nor subnormal, infinite or NaN. -/
def isNormal (f : FloatFormat) (bits : UInt64) : Bool :=
  f.expField bits != 0 && f.expField bits != f.expMax

/-- Whether a pattern is a subnormal number. -/
def isSubnormal (f : FloatFormat) (bits : UInt64) : Bool :=
  f.expField bits == 0 && f.fracField bits != 0

/-! ## Arithmetic -/

/-- The sum of two values. -/
def addValues (f : FloatFormat) : FloatValue → FloatValue → UInt64
  | .nan s p, _ => f.quietNaN s p
  | _, .nan s p => f.quietNaN s p
  | .inf s, .inf s' => if s = s' then f.encode (.inf s) else f.invalid
  | .inf s, _ => f.encode (.inf s)
  | _, .inf s => f.encode (.inf s)
  | .finite s m e, .finite s' m' e' =>
    let base := min e e'
    let sum := FloatValue.signed s (m <<< (e - base).toNat)
      + FloatValue.signed s' (m' <<< (e' - base).toNat)
    f.encode (.finite (if sum = 0 then s && s' else sum < 0) sum.natAbs base)

/-- The sum of two patterns. -/
def add (f : FloatFormat) (a b : UInt64) : UInt64 := f.addValues (f.decode a) (f.decode b)

/-- The difference of two patterns; a NaN keeps its sign. -/
def sub (f : FloatFormat) (a b : UInt64) : UInt64 :=
  let v := f.decode b
  f.addValues (f.decode a) (if v.isNaN then v else v.mapSign not)

/-- The product of two patterns. -/
def mul (f : FloatFormat) (a b : UInt64) : UInt64 :=
  match f.decode a, f.decode b with
  | .nan s p, _ => f.quietNaN s p
  | _, .nan s p => f.quietNaN s p
  | .inf s, .inf s' => f.encode (.inf (s != s'))
  | .inf s, .finite s' m _ => if m = 0 then f.invalid else f.encode (.inf (s != s'))
  | .finite s m _, .inf s' => if m = 0 then f.invalid else f.encode (.inf (s != s'))
  | .finite s m e, .finite s' m' e' => f.encode (.finite (s != s') (m * m') (e + e'))

/-- The quotient of two patterns. -/
def div (f : FloatFormat) (a b : UInt64) : UInt64 :=
  match f.decode a, f.decode b with
  | .nan s p, _ => f.quietNaN s p
  | _, .nan s p => f.quietNaN s p
  | .inf _, .inf _ => f.invalid
  | .inf s, .finite s' .. => f.encode (.inf (s != s'))
  | .finite s .., .inf s' => f.encode (.finite (s != s') 0 0)
  | .finite s m e, .finite s' m' e' =>
    if m' = 0 then (if m = 0 then f.invalid else f.encode (.inf (s != s')))
    else f.encodeQuotient (s != s') m m' (e - e')

/-- The remainder of a division whose quotient is cut to an integer; it has the sign of the
    dividend and is exact. -/
def rem (f : FloatFormat) (a b : UInt64) : UInt64 :=
  match f.decode a, f.decode b with
  | .nan s p, _ => f.quietNaN s p
  | _, .nan s p => f.quietNaN s p
  | .inf _, _ => f.invalid
  | v, .inf _ => f.encode v
  | .finite s m e, .finite _ m' e' =>
    if m' = 0 then f.invalid
    else
      let base := min e e'
      f.encode (.finite s ((m <<< (e - base).toNat) % (m' <<< (e' - base).toNat)) base)

/-- The operand that `better` prefers; a NaN gives way to the other operand. -/
def select (f : FloatFormat) (better : FloatValue → FloatValue → Bool) (a b : UInt64) : UInt64 :=
  let va := f.decode a
  let vb := f.decode b
  if va.isNaN then f.encode vb
  else if vb.isNaN then f.encode va
  else if better vb va then f.encode vb
  else f.encode va

/-- The smaller of two patterns; a NaN gives way to a number. -/
def min (f : FloatFormat) (a b : UInt64) : UInt64 := f.select (fun x y => x.lt y) a b

/-- The larger of two patterns; a NaN gives way to a number. -/
def max (f : FloatFormat) (a b : UInt64) : UInt64 := f.select (fun x y => y.lt x) a b

/-- `a * b + c`, rounded once. -/
def fma (f : FloatFormat) (a b c : UInt64) : UInt64 :=
  match f.decode a, f.decode b, f.decode c with
  | .finite s m e, .finite s' m' e', vc => f.addValues (.finite (s != s') (m * m') (e + e')) vc
  | va, vb, vc =>
    if va.isNaN || vb.isNaN then f.mul a b
    else if vc.isNaN then f.encode vc
    else f.addValues (f.decode (f.mul a b)) vc

/-- Take a pattern to an integral one. -/
def toIntegral (f : FloatFormat) (dir : Integral) (a : UInt64) : UInt64 :=
  f.encode ((f.decode a).toIntegral dir)

/-- Clear the sign bit. -/
def abs (f : FloatFormat) (a : UInt64) : UInt64 := f.encode ((f.decode a).mapSign fun _ => false)

end FloatFormat

/-- Apply an operation to two patterns of a format. -/
def FloatOp.apply (op : FloatOp) (f : FloatFormat) (a b : UInt64) : UInt64 :=
  match op with
  | .add => f.add a b
  | .sub => f.sub a b
  | .mul => f.mul a b
  | .div => f.div a b
  | .rem => f.rem a b
  | .min => f.min a b
  | .max => f.max a b

end Lockstep
