import Polyglot.Data.Line

/-!
# Tokens on a line

What a line's octets begin with: a key and its colon, a quoted scalar, the extent of a plain scalar. All
delimiters are ASCII. A comment begins at a `#` after a blank.
-/

namespace Polyglot.Data

/-- The number of blanks that these octets begin with. -/
def blanks (cs : List Char) : Nat := (cs.takeWhile isBlank).length

/-- The content is used up, but for a comment. -/
def isUsedUp (cs : List Char) : Bool := cs.head?.all (· == '#')

/-- How many octets stand before the closing quote, after the opening one. In double quotes a backslash
shields the next octet; in single quotes a doubled quote is part of the text. -/
def beforeClosingQuote? (quote : Char) : List Char → Option Nat
  | [] => none
  | '\\' :: [] => none
  | c :: d :: rest =>
    if quote = '"' ∧ c = '\\' then (beforeClosingQuote? quote rest).map (· + 2)
    else if c = quote then
      if quote = '\'' ∧ d = '\'' then (beforeClosingQuote? quote rest).map (· + 2) else some 0
    else (beforeClosingQuote? quote (d :: rest)).map (· + 1)
  | c :: [] => if c = quote then some 0 else none

/-- The colon that these octets begin with separates a key: a blank follows it, or nothing. -/
def beginsSeparator (cs : List Char) : Bool :=
  match cs with
  | ':' :: rest => rest.head?.all isBlank
  | _ => false

/-- How many octets stand before the separator of a plain key; `previous` is the octet before. A comment
hides what follows it. -/
def beforeSeparator? (previous : Option Char) : List Char → Option Nat
  | [] => none
  | c :: cs =>
    if c = '#' ∧ previous.any isBlank then none
    else if beginsSeparator (c :: cs) then some 0
    else (beforeSeparator? (some c) cs).map (· + 1)

/-- A key that content begins with: the length of the key, and the octets up to the end of its colon. -/
structure KeyExtent where
  key : Nat
  colonEnd : Nat
deriving DecidableEq, Repr

/-- Finds the key that content begins with. -/
def findKey? (cs : List Char) : Option KeyExtent :=
  match cs with
  | [] => none
  | '[' :: _ | '\x7b' :: _ | '#' :: _ => none
  | c :: rest =>
    if c = '"' ∨ c = '\'' then
      (beforeClosingQuote? c rest).bind fun n =>
        let key := n + 2
        let colon := key + blanks (cs.drop key)
        if beginsSeparator (cs.drop colon) then some ⟨key, colon + 1⟩ else none
    else (beforeSeparator? none cs).map fun n => ⟨(trimEnd (cs.take n)).length, n + 1⟩

/-- How many octets stand before a comment. -/
def beforeComment (previous : Option Char) : List Char → Nat
  | [] => 0
  | c :: cs => if c = '#' ∧ previous.any isBlank then 0 else beforeComment (some c) cs + 1

/-- The length of a plain scalar on one line: up to a comment, without blanks at the end. -/
def plainLength (cs : List Char) : Nat := (trimEnd (cs.take (beforeComment none cs))).length

/-- The plain scalar at a span. -/
def plainScalar (s : String) (r : Span) : Except TornCharacter Scalar := do
  let source ← tokenText s r
  return ⟨.ofPlain source, .plain, r, source⟩

/-- The quoted scalar that begins at `start`; `cs` holds its opening quote and what may belong to it. An
unclosed one runs to the end of `cs`. -/
def quotedScalar (s : String) (start : Nat) (cs : List Char) :
    Except TornCharacter (Taken Scalar) := do
  let quote := cs.headD '"'
  let stop := start + cs.length
  let (inner, token, errors) : Span × Span × List Error :=
    match beforeClosingQuote? quote cs.tail with
    | some n => (.withLength (start + 1) n, .withLength start (n + 2), [])
    | none => (⟨start + 1, max stop (start + 1)⟩, ⟨start, stop⟩, [⟨.unterminatedString, ⟨start, stop⟩⟩])
  let text ← tokenText s inner
  let source ← tokenText s token
  let scalar : Scalar :=
    if quote = '"' then ⟨.text (Text.unescape text), .doubleQuoted, token, source⟩
    else ⟨.text (Text.undouble text), .singleQuoted, token, source⟩
  return ⟨scalar, token.length, errors⟩

/-- The error for content behind a complete value; `cs` is what follows it, from offset `start` on. -/
def trailingErrors (start : Nat) (cs : List Char) : List Error :=
  let n := blanks cs
  if isUsedUp (cs.drop n) then [] else [⟨.unexpectedContent, ⟨start + n, start + cs.length⟩⟩]

end Polyglot.Data
