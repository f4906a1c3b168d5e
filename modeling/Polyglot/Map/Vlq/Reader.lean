import Polyglot.Text.Slice
import Polyglot.Map.Segment
import Polyglot.Map.Vlq.Number

/-!
# Reading mappings

The mappings of a source map are lines of segments, each a few numbers that are differences to the segment
before.
-/

namespace Polyglot

namespace Vlq

/-- A difference added to a running total, in 32-bit words. -/
def advance (total : Nat) (delta : Int) : Nat := ((total + delta) % 0x100000000).toNat

/-- The running totals of all fields but the generated column. -/
structure Totals where
  source : Nat
  line : Nat
  column : Nat
  name : Nat
deriving DecidableEq, Repr, Inhabited

/-- How many sources and names a map has. -/
structure Limits where
  sources : Nat
  names : Nat
deriving DecidableEq, Repr, Inhabited

/-- The source part of a segment of four or five fields. -/
def sourceOf (limits : Limits) (t : Totals) (source line column : Int) (name : Option Int) :
    Except Fault Totals := do
  let source := advance t.source source
  if limits.sources ≤ source then throw (.badSource source)
  let t := { t with source, line := advance t.line line, column := advance t.column column }
  match name with
  | none => return t
  | some name =>
    let name := advance t.name name
    if limits.names ≤ name then throw (.badName name)
    return { t with name }

/-- The segments of one line that are left, after column `column`. -/
def lineSegments (limits : Limits) (line : Nat) (column : Nat) (t : Totals) :
    List (List Char) → Except Fault (List Segment × Totals)
  | [] => .ok ([], t)
  | [] :: rest => lineSegments limits line column t rest
  | text :: rest => do
    let fields ← numbers 0 0 text
    match fields with
    | [c] =>
      let column := advance column c
      let (more, t) ← lineSegments limits line column t rest
      return (⟨⟨line, column⟩, none⟩ :: more, t)
    | c :: s :: l :: k :: name =>
      if 1 < name.length then throw (.fieldCount fields.length)
      let column := advance column c
      let t ← sourceOf limits t s l k name.head?
      let (more, t') ← lineSegments limits line column t rest
      return (⟨⟨line, column⟩, some ⟨t.line, t.column⟩⟩ :: more, t')
    | _ => throw (.fieldCount fields.length)

/-- The text between separators. -/
def splitAt (separator : Char) : List Char → List (List Char)
  | [] => [[]]
  | c :: cs =>
    if c = separator then [] :: splitAt separator cs
    else
      match splitAt separator cs with
      | [] => [[c]]
      | piece :: rest => (c :: piece) :: rest

/-- The first octet that is no base-64 digit is an error. -/
def checkDigits (cs : List Char) : Except Fault Unit :=
  match cs.find? fun c => (digit? c).isNone with
  | some c => .error (.badDigit c)
  | none => .ok ()

/-- The segments of all lines from number `line` on. `ranges` holds the range flags of the lines, which are only
checked to be digits, and only where the line holds anything. -/
def segments (limits : Limits) (line : Nat) (t : Totals) (ranges : List (List Char)) :
    List (List Char) → Except Fault (List Segment)
  | [] => .ok []
  | text :: rest => do
    let (here, t) ← (if text.isEmpty then .ok ([], t) else do
      checkDigits (ranges.head?.getD [])
      lineSegments limits line 0 t (splitAt ',' text))
    let more ← segments limits (line + 1) t ranges.tail rest
    return here ++ more

end Vlq

end Polyglot
