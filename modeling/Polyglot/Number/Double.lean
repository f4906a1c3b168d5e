/-!
# Binary64 numbers

A number is given by its bits. `ofDecimal` rounds a decimal fraction to the nearest double, a tie going to
the even one; `shortest` finds the fewest decimal digits that round back to the same double.
-/

namespace Polyglot

/-- An IEEE 754 double. -/
structure Double where
  bits : UInt64
deriving DecidableEq, Repr, Inhabited

namespace Double

/-- The bits of infinity: all exponent bits, no fraction bits. -/
def infiniteBits : Nat := 0x7FF * 0x10000000000000

/-- The bit of the sign. -/
def signBit : Nat := 0x8000000000000000

/-- The bits without the sign. -/
def magnitude (x : Double) : Nat := x.bits.toNat % signBit

def isNegative (x : Double) : Bool := signBit ≤ x.bits.toNat

def isFinite (x : Double) : Bool := x.magnitude < infiniteBits

def isNaN (x : Double) : Bool := infiniteBits < x.magnitude

def nan : Double := ⟨0x7FF8000000000000⟩

/-- A double from its sign and the bits of its magnitude. -/
def ofMagnitude (negative : Bool) (magnitude : Nat) : Double :=
  ⟨(magnitude + if negative then signBit else 0).toUInt64⟩

def infinity (negative : Bool) : Double := ofMagnitude negative infiniteBits

/-- The numerator and denominator of `n · base ^ e`. -/
def scaled (n base : Nat) (e : Int) : Nat × Nat := (n * base.pow e.toNat, base.pow (-e).toNat)

/-- A quotient rounded to the nearest integer, a tie going to the even one. -/
def roundQuotient (num den : Nat) : Nat :=
  let q := num / den
  let r := num % den
  if 2 * r < den then q
  else if den < 2 * r then q + 1
  else if q % 2 = 0 then q else q + 1

/-- The exponent of the last bit of a double near `num / den`: the significand has 53 bits, unless
the number is smaller than every normal double. -/
def lastBit (num den : Nat) : Int :=
  let e : Int := (num.log2 : Int) - den.log2 - 52
  let (n, d) := scaled den 2 e
  let e := if num * d < n * 0x10000000000000 then e - 1 else e
  max e (-1074)

/-- The bits of the double nearest to a positive quotient. A significand that rounds up to the next power
of two carries into the exponent, and past the largest double lies infinity. -/
def magnitudeOfQuotient (num den : Nat) : Nat :=
  let e := lastBit num den
  let (n, d) := scaled den 2 e
  min ((e + 1074).toNat * 0x10000000000000 + roundQuotient (num * d) n) infiniteBits

/-- The double nearest to `n · 10 ^ e`. -/
def ofDecimal (negative : Bool) (n : Nat) (e : Int) : Double :=
  if n = 0 then ofMagnitude negative 0
  else
    let top : Int := e + (Nat.toDigits 10 n).length
    if top < -400 then ofMagnitude negative 0
    else if 400 < top then infinity negative
    else
      let (num, den) := scaled n 10 e
      ofMagnitude negative (magnitudeOfQuotient num den)

/-- The significand and the exponent of its last bit, for a finite double. -/
def decode (x : Double) : Nat × Int :=
  let fraction := x.magnitude % 0x10000000000000
  let exponent : Nat := x.magnitude / 0x10000000000000
  if exponent = 0 then (fraction, -1074) else (0x10000000000000 + fraction, Int.ofNat exponent - 1075)

/-- The product of two finite doubles, rounded to the nearest double. -/
def mul (x y : Double) : Double :=
  let negative := x.isNegative != y.isNegative
  let (m, p) := x.decode
  let (n, q) := y.decode
  if m * n = 0 then ofMagnitude negative 0
  else
    let (num, den) := scaled (m * n) 2 (p + q)
    ofMagnitude negative (magnitudeOfQuotient num den)

/-- Quarters of the last bit between a double and the ends of the interval that rounds to it: two on each
side, but one below a power of two. -/
def slackBelow (x : Double) : Nat :=
  if x.magnitude % 0x10000000000000 = 0 ∧ 1 < x.magnitude / 0x10000000000000 then 1 else 2

/-- The multiple of `10 ^ g` that rounds to `x` and is nearest to it, as a factor; of two equally near the
greater one. Only the two neighbours of `x` on this grid can be nearest. -/
def onGrid? (x : Double) (g : Int) : Option Nat :=
  let (m, q) := x.decode
  let (a, b) := scaled 1 10 g
  let (c, d) := scaled 1 2 (q - 2)
  -- In units of `1 / (b · d)`, `x` is `4 · m · c · b`, and a grid step is `a · d`.
  let value := 4 * m * c * b
  let step := a * d
  let low := (4 * m - x.slackBelow) * c * b
  let high := (4 * m + 2) * c * b
  let closed := m % 2 = 0
  let inside (k : Nat) : Bool :=
    if closed then low ≤ k * step && k * step ≤ high else low < k * step && k * step < high
  let k := value / step
  match inside k, inside (k + 1) with
  | true, true => if value - k * step < (k + 1) * step - value then some k else some (k + 1)
  | true, false => some k
  | false, true => some (k + 1)
  | false, false => none

/-- The first grid from `10 ^ g` downwards, among `n` grids, that has a number which rounds to `x`. -/
def firstGrid (x : Double) (g : Int) : Nat → Nat × Int
  | 0 => (0, g)
  | n + 1 =>
    match x.onGrid? g with
    | some k => (k, g)
    | none => x.firstGrid (g - 1) n

/-- The fewest digits that round back to a positive finite `x`, as an integer and a power of ten. The
search begins above the leading digit; some grid within eighteen digits of it always has a number. -/
def shortest (x : Double) : Nat × Int :=
  let (m, q) := x.decode
  let top := ((m.log2 : Int) + q) * 30103 / 100000 + 2
  x.firstGrid top 24

end Double

end Polyglot
