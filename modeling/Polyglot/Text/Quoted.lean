/-!
# Quoted strings

`quote` writes a string as a JSON string; `quoteSafe` also keeps it from ending a script element or a
line. `unescape` reads the inside of a double-quoted scalar; it knows more escapes than are written, and
keeps what is no valid character code as it stands.
-/

namespace Polyglot

namespace Text

/-- The lower-case hexadecimal digits of `n`, filled up with zeros to `width` of them. -/
def hexDigits (width n : Nat) : List Char :=
  let digits := Nat.toDigits 16 n
  List.replicate (width - digits.length) '0' ++ digits

/-- A character inside a JSON string. -/
def quoteChar (c : Char) : List Char :=
  match c with
  | '"' => ['\\', '"']
  | '\\' => ['\\', '\\']
  | '\x08' => ['\\', 'b']
  | '\t' => ['\\', 't']
  | '\n' => ['\\', 'n']
  | '\x0c' => ['\\', 'f']
  | '\r' => ['\\', 'r']
  | c => if c.toNat < 0x20 then '\\' :: 'u' :: hexDigits 4 c.toNat else [c]

/-- A JSON string. -/
def quote (s : String) : String := String.ofList ('"' :: s.toList.flatMap quoteChar ++ ['"'])

/-- Escapes the characters that a script must not hold bare: `<` and the two Unicode line breaks. -/
def shieldChar (c : Char) : List Char :=
  match c with
  | '<' => "\\u003C".toList
  | '\u2028' => "\\u2028".toList
  | '\u2029' => "\\u2029".toList
  | c => [c]

/-- A JSON string that is safe to embed in a script. -/
def quoteSafe (s : String) : String := String.ofList ((quote s).toList.flatMap shieldChar)

/-- The value of a digit in a base up to 16. -/
def digit? (base : Nat) (c : Char) : Option Nat :=
  let n :=
    if '0' ≤ c ∧ c ≤ '9' then c.toNat - '0'.toNat
    else if 'a' ≤ c ∧ c ≤ 'f' then c.toNat - 'a'.toNat + 10
    else if 'A' ≤ c ∧ c ≤ 'F' then c.toNat - 'A'.toNat + 10
    else base
  if n < base then some n else none

/-- The number that digits in a base spell, continuing from `n`. -/
def spelledFrom? (base : Nat) (n : Nat) : List Char → Option Nat
  | [] => some n
  | c :: cs => (digit? base c).bind fun d => spelledFrom? base (base * n + d) cs

/-- The number that one or more digits in a base spell. -/
def spelled? (base : Nat) (cs : List Char) : Option Nat :=
  if cs.isEmpty then none else spelledFrom? base 0 cs

/-- The character of a code point. -/
def charOfCode? (n : Nat) : Option Char := if h : n.isValidChar then some (Char.ofNatAux n h) else none

/-- The character that hexadecimal digits name, with an optional plus sign in front. -/
def charOfHex? (cs : List Char) : Option Char :=
  let digits := match cs with
    | '+' :: rest => rest
    | rest => rest
  (spelled? 16 digits).bind charOfCode?

/-- How many digits follow the letter of a numeric escape. -/
def escapeWidth (c : Char) : Nat :=
  match c with
  | 'x' => 2
  | 'u' => 4
  | 'U' => 8
  | _ => 0

/-- The character that a one-letter escape stands for; an unknown one stands for itself. -/
def escapedChar (c : Char) : Char :=
  match c with
  | 'n' => '\n'
  | 't' => '\t'
  | 'r' => '\r'
  | '0' => '\x00'
  | 'b' => '\x08'
  | 'f' => '\x0c'
  | 'v' => '\x0b'
  | 'a' => '\x07'
  | 'e' => '\x1b'
  | 'N' => '\u0085'
  | '_' => '\u00a0'
  | 'L' => '\u2028'
  | 'P' => '\u2029'
  | c => c

/-- Resolves the escapes of a double-quoted scalar. -/
def unescapeList : List Char → List Char
  | [] => []
  | '\\' :: [] => ['\\']
  | '\\' :: e :: rest =>
    let width := escapeWidth e
    if width = 0 then escapedChar e :: unescapeList rest
    else
      let code := rest.take width
      (match charOfHex? code with
        | some c => [c]
        | none => '\\' :: e :: code) ++ unescapeList (rest.drop width)
  | c :: rest => c :: unescapeList rest
termination_by cs => cs.length
decreasing_by all_goals simp <;> omega

def unescape (s : String) : String := String.ofList (unescapeList s.toList)

/-- The inside of a single-quoted scalar: a doubled quote stands for one. -/
def undoubleList : List Char → List Char
  | '\'' :: '\'' :: rest => '\'' :: undoubleList rest
  | c :: rest => c :: undoubleList rest
  | [] => []

def undouble (s : String) : String := String.ofList (undoubleList s.toList)

end Text

end Polyglot
