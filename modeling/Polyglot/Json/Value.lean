import Polyglot.Number.Double

/-!
# JSON values

A value as it was written: the order of members, members of equal names, the kind of each number. What a
reader asks of a value (a text without stray surrogates, a number in range, a bounded depth) is decided
where it is used, since values that nobody reads may break these rules.
-/

namespace Polyglot

/-- A number: an integer by its digits, or a number with a point or an exponent. -/
inductive JsonNumber where
  | integer (negative : Bool) (magnitude : Nat)
  | decimal (negative : Bool) (digits : Nat) (exponent : Int)
deriving DecidableEq, Repr, Inhabited

/-- The leading digits of a number, as far as 64 bits hold them, and how many digits follow. -/
def leadingDigits (n : Nat) : Nat × Nat :=
  if n < 0x10000000000000000 then (n, 0)
  else
    let (leading, more) := leadingDigits (n / 10)
    (leading, more + 1)
termination_by n

/-- `n · 10 ^ e` is below infinity when its leading digits, as a double, are multiplied by a power of ten, as a
double. Near the largest double, this refuses a few numbers that would round to it. -/
def isBelowInfinity (n : Nat) (e : Int) : Bool :=
  let (leading, more) := leadingDigits n
  let e := e + more
  leading = 0 || e < 0 ||
    (e ≤ 308 && ((Double.ofDecimal false leading 0).mul (Double.ofDecimal false 1 e)).isFinite)

/-- The number is not too large for a double. -/
def JsonNumber.isInRange : JsonNumber → Bool
  | .integer _ n => isBelowInfinity n 0
  | .decimal _ n e => isBelowInfinity n e

inductive JsonValue where
  | null
  | bool (b : Bool)
  | number (n : JsonNumber)
  /-- A text; none if an escape in it names half of a surrogate pair. -/
  | string (text : Option String)
  | array (items : List JsonValue)
  | object (members : List (Option String × JsonValue))
deriving Repr, Inhabited

namespace JsonValue

mutual

/-- How many arrays and objects are nested in each other. -/
def depth : JsonValue → Nat
  | array items => depthOfItems items + 1
  | object members => depthOfMembers members + 1
  | _ => 0

def depthOfItems : List JsonValue → Nat
  | [] => 0
  | v :: vs => max v.depth (depthOfItems vs)

def depthOfMembers : List (Option String × JsonValue) → Nat
  | [] => 0
  | (_, v) :: vs => max v.depth (depthOfMembers vs)

end

mutual

/-- Every text and name is well formed, and every number in range. -/
def isSound : JsonValue → Bool
  | number n => n.isInRange
  | string text => text.isSome
  | array items => soundItems items
  | object members => soundMembers members
  | _ => true

def soundItems : List JsonValue → Bool
  | [] => true
  | v :: vs => v.isSound && soundItems vs

def soundMembers : List (Option String × JsonValue) → Bool
  | [] => true
  | (name, v) :: vs => name.isSome && v.isSound && soundMembers vs

end

/-- The text, if the value is one. -/
def string? : JsonValue → Option String
  | string text => text
  | _ => none

/-- The natural number below `bound`, if the value is an unsigned integer. -/
def natBelow? (bound : Nat) : JsonValue → Option Nat
  | number (.integer false n) => if n < bound then some n else none
  | _ => none

def items? : JsonValue → Option (List JsonValue)
  | array items => some items
  | _ => none

/-- The members of an object whose names are all well formed. -/
def members? : JsonValue → Option (List (String × JsonValue))
  | object members => members.mapM fun (name, v) => name.map (·, v)
  | _ => none

end JsonValue

end Polyglot
