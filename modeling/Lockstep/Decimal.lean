import Lockstep.FloatFormat

set_option autoImplicit false

/-! # The shortest decimal of a float

Of the decimals that read back as a given float, `shortest` chooses one with the fewest digits, and
of those the nearest to the float; a tie goes to the larger. It tries 1, 2, … digits: of the
decimals with that many digits only the two neighbours of the float can be candidates. All
comparisons are made on natural numbers, after both sides are multiplied by a common denominator.

`render` writes the digits in full between `0.0001` and `10 ^ 16`, with at least one digit on each
side of the point, and with a power of ten elsewhere. -/

namespace Lockstep

namespace Decimal

/-- The reals that round to one float, over the common denominator `den`: the float is
    `value / den`, and the interval reaches `below / den` down and `above / den` up, ends included
    if `closed`. -/
structure Interval where
  value : Nat
  below : Nat
  above : Nat
  den : Nat
  closed : Bool
deriving Repr

/-- The interval of a positive double `m * 2 ^ e`. The gap below a power of two is half the gap
    above it, except at the least exponent. -/
def interval (f : FloatFormat) (m : Nat) (e : Int) : Interval :=
  let tight := m = Nat.pow 2 f.fracBits ∧ e > 1 - (f.bias : Int) - f.fracBits
  let up := Nat.pow 2 e.toNat
  let den := 4 * Nat.pow 2 (-e).toNat
  { value := 4 * m * up, below := if tight then up else 2 * up, above := 2 * up, den := den,
    closed := m % 2 = 0 }

/-- Whether `n / d` with the interval's float rounds to the float. -/
def Interval.holds (iv : Interval) (n d : Nat) : Bool :=
  let x := n * iv.den
  let low := (iv.value - iv.below) * d
  let high := (iv.value + iv.above) * d
  if iv.closed then low ≤ x && x ≤ high else low < x && x < high

/-- The largest `k ≤ bound` with `10 ^ k * den ≤ num`, for `den ≤ num`. -/
def log10Floor (num den : Nat) : (bound : Nat) → Nat
  | 0 => 0
  | k + 1 => if Nat.pow 10 (k + 1) * den ≤ num then k + 1 else log10Floor num den k

/-- The exponent of the leading decimal digit of `num / den`. -/
def leadingExponent (num den : Nat) : Int :=
  if den ≤ num then log10Floor num den (num.log2 + 1)
  else
    -- the least `k` with `den ≤ 10 ^ k * num`
    let k := log10Floor den num (den.log2 + 1)
    if Nat.pow 10 k * num = den then -(k : Int) else -(k + 1 : Int)

/-- The decimal `digits * 10 ^ exponent`. -/
structure Digits where
  digits : Nat
  exponent : Int
deriving Repr, DecidableEq

/-- A candidate with `count` digits, when one rounds to the float. -/
def candidate? (iv : Interval) (lead : Int) (count : Nat) : Option Digits :=
  let exponent := lead + 1 - count
  let up := Nat.pow 10 exponent.toNat
  let down := Nat.pow 10 (-exponent).toNat
  -- the float is `value / den`; the grid's unit is `up / down`
  let num := iv.value * down
  let unit := iv.den * up
  let low := num / unit
  let lowHolds := iv.holds (low * up) down
  let highHolds := iv.holds ((low + 1) * up) down
  if lowHolds && (!highHolds || 2 * (num % unit) < unit) then some ⟨low, exponent⟩
  else if highHolds then some ⟨low + 1, exponent⟩
  else none

/-- The shortest decimal that rounds to the float of an interval. -/
def Interval.shortest (iv : Interval) : Digits :=
  let lead := leadingExponent iv.value iv.den
  ((List.range 17).findSome? fun i => candidate? iv lead (i + 1)).getD ⟨0, 0⟩

/-- Leave out the zeros at the end of a digit string. -/
def stripZeros (ds : List Char) : List Char := (ds.reverse.dropWhile (· == '0')).reverse

/-- Write `0.d₁d₂… * 10 ^ point`. -/
def renderDigits (ds : List Char) (point : Int) : String :=
  if -4 < point ∧ point ≤ 16 then
    if point ≤ 0 then "0." ++ String.ofList (List.replicate (-point).toNat '0' ++ ds)
    else
      let p := point.toNat
      let whole := ds.take p ++ List.replicate (p - ds.length) '0'
      let frac := ds.drop p
      String.ofList whole ++ "." ++ String.ofList (if frac.isEmpty then ['0'] else frac)
  else
    let tail := if ds.length > 1 then "." ++ String.ofList ds.tail else ""
    String.ofList (ds.take 1) ++ tail ++ "e" ++ toString (point - 1)

/-- Write a double-precision pattern. -/
def render (bits : UInt64) : String :=
  match FloatFormat.double.decode bits with
  | .nan .. => "NaN"
  | .inf neg => if neg then "-inf" else "inf"
  | .finite neg m e =>
    let sign := if neg then "-" else ""
    if m = 0 then sign ++ "0.0"
    else
      let d := (interval .double m e).shortest
      let ds := Nat.toDigits 10 d.digits
      sign ++ renderDigits (stripZeros ds) (ds.length + d.exponent)

end Decimal

end Lockstep
