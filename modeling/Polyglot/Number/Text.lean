import Polyglot.Number.Double

/-!
# The text of a number

Numbers are written with the fewest digits that read back, positionally from a millionth up to 21 digits
before the point, and with a signed exponent beyond that.
-/

namespace Polyglot

/-- How a number is laid out around its digits. -/
structure NumberFormat where
  /-- The most digits before the point of a positional number. -/
  maxWhole : Int
  /-- The most zeros right after the point of a positional number. -/
  maxLeadingZeros : Int
  nan : String
  infinity : String
deriving DecidableEq, Repr

/-- The format of a script's number literals. -/
def NumberFormat.script : NumberFormat := ⟨21, 5, "NaN", "Infinity"⟩

/-- Decimal digits without zeros at the end, and the power of ten that they are to be multiplied by. -/
def trimZeros (n : Nat) (e : Int) : List Char × Int :=
  let digits := Nat.toDigits 10 n
  let kept := (digits.reverse.dropWhile (· == '0')).reverse
  (kept, e + (digits.length - kept.length : Nat))

/-- Digits with a point in front of digit number `point`, filled up with zeros on either side. -/
def positional (digits : List Char) (point : Int) : List Char :=
  if point ≤ 0 then '0' :: '.' :: (List.replicate (-point).toNat '0' ++ digits)
  else if digits.length ≤ point then digits ++ List.replicate (point - digits.length).toNat '0'
  else digits.take point.toNat ++ '.' :: digits.drop point.toNat

/-- One digit before the point, and the exponent with its sign. -/
def exponential (digits : List Char) (exponent : Int) : List Char :=
  let mantissa :=
    match digits with
    | d :: e :: rest => d :: '.' :: e :: rest
    | short => short
  let sign := if exponent < 0 then '-' else '+'
  mantissa ++ 'e' :: sign :: Nat.toDigits 10 exponent.natAbs

/-- The text of a double. -/
def NumberFormat.write (f : NumberFormat) (x : Double) : String :=
  if x.isNaN then f.nan
  else
    let body :=
      if ¬ x.isFinite then f.infinity
      else if x.magnitude = 0 then "0"
      else
        let (n, e) := x.shortest
        let (digits, e) := trimZeros n e
        let point := e + digits.length
        String.ofList <|
          if -f.maxLeadingZeros ≤ point ∧ point ≤ f.maxWhole then positional digits point
          else exponential digits (point - 1)
    if x.isNegative then "-" ++ body else body

end Polyglot
