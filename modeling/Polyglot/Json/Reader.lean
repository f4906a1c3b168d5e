import Polyglot.Json.Value
import Polyglot.Text.Quoted

/-!
# Reading JSON

A strict reader: nothing may follow the value but blanks, and there are no comments and no trailing commas.
Each function answers with what it read and the number of characters it took.
-/

namespace Polyglot

namespace JsonReader

def isBlank (c : Char) : Bool := c == ' ' || c == '\n' || c == '\t' || c == '\r'

def blanks (cs : List Char) : Nat := (cs.takeWhile isBlank).length

def isDigit (c : Char) : Bool := '0' ≤ c && c ≤ '9'

/-! ## Texts -/

/-- The character that a one-letter escape stands for. -/
def simpleEscape? (c : Char) : Option Char :=
  match c with
  | '"' => some '"'
  | '\\' => some '\\'
  | '/' => some '/'
  | 'b' => some '\x08'
  | 'f' => some '\x0c'
  | 'n' => some '\n'
  | 'r' => some '\r'
  | 't' => some '\t'
  | _ => none

/-- The number that exactly four hexadecimal digits in front spell. -/
def fourDigits? (cs : List Char) : Option Nat :=
  if 4 ≤ cs.length then Text.spelled? 16 (cs.take 4) else none

/-- One unit of a text: a character, or a UTF-16 unit from an escape. -/
inductive Unit16 where
  | char (c : Char)
  | unit (n : Nat)
deriving DecidableEq, Repr

/-- The units of a text up to its closing quote, and the number of characters with that quote. Characters
below a space must be escaped. -/
def units? : List Char → Option (List Unit16 × Nat)
  | [] => none
  | '"' :: _ => some ([], 1)
  | '\\' :: 'u' :: rest =>
    (fourDigits? rest).bind fun n =>
      (units? (rest.drop 4)).map fun (us, k) => (.unit n :: us, k + 6)
  | '\\' :: e :: rest =>
    (simpleEscape? e).bind fun c => (units? rest).map fun (us, k) => (.char c :: us, k + 2)
  | c :: rest =>
    if c = '\\' ∨ c.toNat < 0x20 then none
    else (units? rest).map fun (us, k) => (.char c :: us, k + 1)
termination_by cs => cs.length
decreasing_by all_goals simp <;> omega

/-- The text of units; an escaped surrogate must be followed by its other half. -/
def textOf? : List Unit16 → Option (List Char)
  | [] => some []
  | .char c :: rest => (textOf? rest).map (c :: ·)
  | .unit n :: rest =>
    if 0xD800 ≤ n ∧ n < 0xDC00 then
      match rest with
      | .unit m :: rest =>
        if 0xDC00 ≤ m ∧ m < 0xE000 then
          (textOf? rest).map (Char.ofNat (0x10000 + (n - 0xD800) * 0x400 + (m - 0xDC00)) :: ·)
        else none
      | _ => none
    else (Text.charOfCode? n).bind fun c => (textOf? rest).map (c :: ·)

/-- A text after its opening quote. -/
def text? (cs : List Char) : Option (Option String × Nat) :=
  (units? cs).map fun (us, k) => ((textOf? us).map String.ofList, k)

/-! ## Numbers -/

/-- The digits in front, as a number and their count. -/
def digits (cs : List Char) : Nat × Nat :=
  let ds := cs.takeWhile isDigit
  ((Text.spelledFrom? 10 0 ds).getD 0, ds.length)

/-- An exponent in front: its value and length; of length zero if there is none. -/
def exponent? (cs : List Char) : Option (Int × Nat) :=
  match cs with
  | e :: rest =>
    if e = 'e' ∨ e = 'E' then
      let (negative, sign) : Bool × Nat :=
        match rest with
        | '-' :: _ => (true, 1)
        | '+' :: _ => (false, 1)
        | _ => (false, 0)
      let (n, k) := digits (rest.drop sign)
      if k = 0 then none else some (if negative then -n else n, 1 + sign + k)
    else some (0, 0)
  | [] => some (0, 0)

/-- A number without its sign. A zero in front stands alone. -/
def unsigned? (negative : Bool) (cs : List Char) : Option (JsonNumber × Nat) :=
  let (whole, k) := digits cs
  if k = 0 ∨ (1 < k ∧ cs.head? = some '0') then none
  else
    match cs.drop k with
    | '.' :: rest =>
      let (_, f) := digits rest
      if f = 0 then none
      else
        (exponent? (rest.drop f)).map fun (e, x) =>
          (.decimal negative ((digits (cs.take k ++ rest.take f)).1) (e - f), k + 1 + f + x)
    | rest =>
      (exponent? rest).map fun (e, x) =>
        if x = 0 then
          (if negative ∧ whole = 0 then .decimal true 0 0 else .integer negative whole, k)
        else (.decimal negative whole e, k + x)

def number? (cs : List Char) : Option (JsonNumber × Nat) :=
  match cs with
  | '-' :: rest => (unsigned? true rest).map fun (n, k) => (n, k + 1)
  | _ => unsigned? false cs

/-! ## Values -/

mutual

/-- A value, blanks in front of it included. -/
def value? (cs : List Char) : Option (JsonValue × Nat) :=
  let b := blanks cs
  match _h : cs.drop b with
  | 'n' :: 'u' :: 'l' :: 'l' :: _ => some (.null, b + 4)
  | 't' :: 'r' :: 'u' :: 'e' :: _ => some (.bool true, b + 4)
  | 'f' :: 'a' :: 'l' :: 's' :: 'e' :: _ => some (.bool false, b + 5)
  | '"' :: rest => (text? rest).map fun (t, k) => (.string t, b + 1 + k)
  | '[' :: rest =>
    let e := blanks rest
    if (rest.drop e).head? = some ']' then some (.array [], b + 1 + e + 1)
    else (items? rest).map fun (vs, k) => (.array vs, b + 1 + k)
  | '\x7b' :: rest =>
    let e := blanks rest
    if (rest.drop e).head? = some '\x7d' then some (.object [], b + 1 + e + 1)
    else (members? rest).map fun (vs, k) => (.object vs, b + 1 + k)
  | rest => (number? rest).map fun (n, k) => (.number n, b + k)
termination_by 2 * cs.length
decreasing_by
  all_goals
    have := congrArg List.length _h
    simp at this
    omega

/-- One or more items up to the closing bracket. -/
def items? (cs : List Char) : Option (List JsonValue × Nat) :=
  (value? cs).bind fun (v, k) =>
    let b := k + blanks (cs.drop k)
    match _h : cs.drop b with
    | ']' :: _ => some ([v], b + 1)
    | ',' :: rest => (items? rest).map fun (vs, n) => (v :: vs, b + 1 + n)
    | _ => none
termination_by 2 * cs.length + 1
decreasing_by
  · omega
  · have := congrArg List.length _h
    simp at this
    omega

/-- One or more members up to the closing brace. -/
def members? (cs : List Char) : Option (List (Option String × JsonValue) × Nat) :=
  let b := blanks cs
  match _h : cs.drop b with
  | '"' :: rest =>
    (text? rest).bind fun (name, k) =>
      let c := k + blanks (rest.drop k)
      match _h : rest.drop c with
      | ':' :: rest =>
        (value? rest).bind fun (v, n) =>
          let d := n + blanks (rest.drop n)
          match _h : rest.drop d with
          | '\x7d' :: _ => some ([(name, v)], b + 1 + c + 1 + d + 1)
          | ',' :: rest =>
            (members? rest).map fun (vs, m) => ((name, v) :: vs, b + 1 + c + 1 + d + 1 + m)
          | _ => none
      | _ => none
  | _ => none
termination_by 2 * cs.length + 1
decreasing_by
  · have h1 := congrArg List.length ‹cs.drop b = _›
    have h2 := congrArg List.length ‹_ = ':' :: _›
    simp at h1 h2
    omega
  · have h1 := congrArg List.length ‹cs.drop b = _›
    have h2 := congrArg List.length ‹_ = ':' :: _›
    have h3 := congrArg List.length ‹_ = ',' :: _›
    simp at h1 h2 h3
    omega

end

end JsonReader

/-- The value that a text holds. -/
def JsonValue.ofText? (s : String) : Option JsonValue :=
  let cs := s.toList
  (JsonReader.value? cs).bind fun (v, k) =>
    if (cs.drop k).all JsonReader.isBlank then some v else none

end Polyglot
