import Polyglot.Text.Slice
import Polyglot.Data.Scalar

/-!
# Data trees

The tree that a front matter block holds, and what can be wrong with the block.
-/

namespace Polyglot.Data

/-- A scalar, a mapping or a sequence. `flow` tells the bracketed notation from the indented one. -/
inductive Tree where
  | scalar (s : Scalar)
  | mapping (flow : Bool) (span : Span) (pairs : List (Scalar × Tree))
  | sequence (flow : Bool) (span : Span) (items : List Tree)
deriving Repr, Inhabited

def Tree.span : Tree → Span
  | .scalar s => s.span
  | .mapping _ span _ => span
  | .sequence _ span _ => span

/-- What is wrong with a block. -/
inductive Fault where
  | unterminatedString
  | unterminatedFlow
  | badIndentation
  | missingSeparator
  | tabIndentation
  | duplicateKey
  | unexpectedContent
deriving DecidableEq, Repr, Inhabited

/-- The text shown for a fault. -/
def Fault.message : Fault → String
  | .unterminatedString => "Missing closing quote"
  | .unterminatedFlow => "Missing closing bracket of flow collection"
  | .badIndentation => "Bad indentation of a mapping or sequence entry"
  | .missingSeparator => "Implicit keys need to be followed by map values"
  | .tabIndentation => "Tabs are not allowed as indentation"
  | .duplicateKey => "Map keys must be unique"
  | .unexpectedContent => "Unexpected content after value"

structure Error where
  fault : Fault
  span : Span
deriving DecidableEq, Repr, Inhabited

/-- The fault and where it is. -/
def Error.message (e : Error) : String := e.fault.message ++ " at " ++ toString e.span

/-- What reading a block gives: its root, if there is any content, and its errors in the order found. -/
structure Document where
  root : Option Tree
  errors : List Error
deriving Repr, Inhabited

def Document.isValid (d : Document) : Bool := d.errors.isEmpty

/-- A token would have to begin or end inside a character, so it has no text. Recovery from unexpected
content inside brackets goes on one byte later, and can stop there. -/
structure TornCharacter where
  span : Span
deriving DecidableEq, Repr, Inhabited

/-- The text of a token. -/
def tokenText (s : String) (r : Span) : Except TornCharacter String :=
  match r.slice? s with
  | some text => .ok text
  | none => .error ⟨r⟩

/-- A value read from the front of a list, how many elements of the list it took, and what was wrong. -/
structure Taken (α : Type) where
  value : α
  used : Nat
  errors : List Error
deriving Repr, Inhabited

end Polyglot.Data
