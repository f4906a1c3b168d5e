import Polyglot.Text.Span
import Polyglot.Text.Quoted
import Polyglot.Number.Text

/-!
# Scalars

A scalar is a leaf of the data in a front matter block: its resolved value, how it was written, and where.
`Value.ofPlain` resolves an unquoted scalar; `literal` and `key` write a value as a script literal and
as an object key.
-/

namespace Polyglot.Data

/-- A resolved value. -/
inductive Value where
  | null
  | bool (b : Bool)
  /-- A 64-bit integer. -/
  | int (n : Int)
  | float (x : Double)
  | text (s : String)
  /-- A date, optionally with a time, kept as written. -/
  | date (s : String)
deriving DecidableEq, Repr, Inhabited

/-- How a scalar is written. -/
inductive Style where
  | plain
  | singleQuoted
  | doubleQuoted
  /-- A block that keeps its line breaks. -/
  | literal
  /-- A block whose line breaks are folded into spaces. -/
  | folded
deriving DecidableEq, Repr, Inhabited

structure Scalar where
  value : Value
  style : Style
  span : Span
  /-- The text of the token, quotes included. -/
  source : String
deriving DecidableEq, Repr, Inhabited

namespace Value

/-- The integer fits in 64 bits with a sign. -/
def fits64 (n : Int) : Bool := -0x8000000000000000 ≤ n && n < 0x8000000000000000

def isDigit (c : Char) : Bool := '0' ≤ c && c ≤ '9'

/-- Splits off a sign: whether it is a minus, and the rest. -/
def splitSign : List Char → Bool × List Char
  | '-' :: rest => (true, rest)
  | '+' :: rest => (false, rest)
  | cs => (false, cs)

/-- A signed integer in a base, if it fits in 64 bits. -/
def signed? (base : Nat) (cs : List Char) : Option Int :=
  let (negative, digits) := splitSign cs
  (Text.spelled? base digits).bind fun n =>
    let n : Int := if negative then -n else n
    if fits64 n then some n else none

/-- The parts of an unsigned decimal number: whole digits, digits after the point, and the exponent. -/
structure DecimalParts where
  whole : List Char
  fraction : List Char
  exponent : Int
deriving Repr

/-- Splits at the first character that `p` holds of; the second part, if there is one, leaves it out. -/
def splitAtFirst (p : Char → Bool) (cs : List Char) : List Char × Option (List Char) :=
  (cs.takeWhile fun c => !p c, (cs.dropWhile fun c => !p c).tail?)

/-- The exponent part of a decimal number: an optional sign and one or more digits. -/
def exponent? : Option (List Char) → Option Int
  | none => some 0
  | some cs =>
    let (negative, digits) := splitSign cs
    (Text.spelled? 10 digits).map fun n => if negative then -n else n

/-- Reads `(\.[0-9]+|[0-9]+(\.[0-9]*)?)([eE][-+]?[0-9]+)?`. -/
def decimalParts? (cs : List Char) : Option DecimalParts :=
  let (mantissa, exponent) := splitAtFirst (fun c => c == 'e' || c == 'E') cs
  let (whole, fraction) := splitAtFirst (· == '.') mantissa
  let digits := fraction.getD []
  if whole.all isDigit && digits.all isDigit && !(whole.isEmpty && digits.isEmpty) then
    (exponent? exponent).map fun e => ⟨whole, digits, e⟩
  else none

/-- The double that a decimal number denotes. -/
def DecimalParts.toDouble (d : DecimalParts) (negative : Bool) : Double :=
  Double.ofDecimal negative ((Text.spelledFrom? 10 0 (d.whole ++ d.fraction)).getD 0)
    (d.exponent - d.fraction.length)

/-- `YYYY-MM-DD`, alone or followed by `T`, `t` or a space and a time. -/
def isDate (cs : List Char) : Bool :=
  let shape := (cs.take 10).map fun c => if isDigit c then '0' else c
  shape == "0000-00-00".toList &&
    match cs.drop 10 with
    | [] => true
    | c :: time =>
      (c == 'T' || c == 't' || c == ' ') && 5 ≤ time.length && time.head?.all isDigit &&
        time.contains ':' && time.all fun c => isDigit c || ":.+-Zz ".toList.contains c

/-- Resolves an unquoted scalar: the listed words, integers, decimal numbers and dates; anything else is
text. -/
def ofPlain (s : String) : Value :=
  if ["", "~", "null", "Null", "NULL"].contains s then .null
  else if ["true", "True", "TRUE"].contains s then .bool true
  else if ["false", "False", "FALSE"].contains s then .bool false
  else if [".inf", ".Inf", ".INF", "+.inf", "+.Inf", "+.INF"].contains s then
    .float (.infinity false)
  else if ["-.inf", "-.Inf", "-.INF"].contains s then .float (.infinity true)
  else if [".nan", ".NaN", ".NAN"].contains s then .float .nan
  else
    let cs := s.toList
    let prefixed : Option Int :=
      match cs with
      | '0' :: 'x' :: digits => signed? 16 digits
      | '0' :: 'o' :: digits => signed? 8 digits
      | _ => none
    match prefixed.or (signed? 10 cs) with
    | some n => .int n
    | none =>
      let (negative, unsigned) := splitSign cs
      match decimalParts? unsigned with
      | some d => .float (d.toDouble negative)
      | none => if isDate cs then .date s else .text s

/-- The value as a script literal. Texts are quoted so that they are safe to embed anywhere. -/
def literal : Value → String
  | .null => "null"
  | .bool b => if b then "true" else "false"
  | .int n => toString n
  | .float x => NumberFormat.script.write x
  | .text s => Text.quoteSafe s
  | .date s => "new Date(" ++ Text.quoteSafe s ++ ")"

/-- The value as an object key. -/
def key : Value → String
  | .null => "null"
  | .bool b => if b then "true" else "false"
  | .int n => toString n
  | .float x => if x.isFinite then NumberFormat.script.write x else "null"
  | .text s | .date s => Text.quote s

end Value

namespace Scalar

/-- A value that is not there, as after a key with nothing behind it. -/
def missing (offset : Nat) : Scalar := ⟨.null, .plain, .emptyAt offset, ""⟩

def isNull (x : Scalar) : Bool := x.value == .null

def literal (x : Scalar) : String := x.value.literal

def key (x : Scalar) : String := x.value.key

end Scalar

end Polyglot.Data
