import Polyglot.Map.Segment
import Polyglot.Map.Mapping
import Polyglot.Map.Trailing
import Polyglot.Markup.Document

/-!
# Repaired maps

A compiler's segments claim that the code between two of them is a copy of the source. Only what really is a
copy is mapped: each run is cut to the bytes that agree, and runs that go on where the last one ended extend
it. Runs inside scripts keep no capability. The generated statements at the end map to the whole source.
-/

namespace Polyglot

/-- Why segments cannot be used: segment `index` is placed at `offset`, before `previous`. -/
structure UnorderedSegments where
  index : Nat
  previous : Nat
  offset : Nat
deriving DecidableEq, Repr, Inhabited

def UnorderedSegments.message (e : UnorderedSegments) : String :=
  "segment " ++ toString e.index ++ " goes back to generated offset " ++ toString e.offset ++
    " after " ++ toString e.previous

namespace Repair

/-- The capabilities of the statements at the end. -/
def catchAllCapabilities : Capabilities := .diagnostics ||| .structure_

/-- The capabilities of a run that begins inside a script. -/
def scriptCapabilities : Capabilities := .empty

/-- A segment by its offsets. -/
structure Located where
  generated : Nat
  source : Option Nat
deriving DecidableEq, Repr, Inhabited

/-- The offsets of the segments, if the generated ones never descend. `previous` is the one before, `index`
the number of the first segment. -/
def locate (place : Segment → Located) (index previous : Nat) :
    List Segment → Except UnorderedSegments (List Located)
  | [] => .ok []
  | segment :: rest =>
    let here := place segment
    if here.generated < previous then .error ⟨index, previous, here.generated⟩
    else do
      let located ← locate place (index + 1) here.generated rest
      return here :: located

/-- The number of bytes, `limit` at most, that agree from offset `i` of `s` and offset `j` of `t` on. -/
def agreement (s : String) (i : Nat) (t : String) (j : Nat) : Nat → Nat
  | 0 => 0
  | limit + 1 =>
    match Text.byte? s i, Text.byte? t j with
    | some a, some b => if a = b then agreement s (i + 1) t (j + 1) limit + 1 else 0
    | _, _ => 0

/-- The greatest length up to `n` whose ends are character boundaries on both sides, or zero. -/
def backOff (s : String) (i : Nat) (t : String) (j : Nat) : Nat → Nat
  | 0 => 0
  | n + 1 =>
    if Text.isBoundary s (i + n + 1) && Text.isBoundary t (j + n + 1) then n + 1
    else backOff s i t j n

/-- The mapping of the run that begins at `here` and ends before `next`, if any of it is a copy. -/
def run? (text generated : String) (markup : Markup.Document) (here next : Located) :
    Option Mapping :=
  here.source.bind fun source =>
    let claimed := next.generated - here.generated
    let length := backOff text source generated here.generated
      (agreement text source generated here.generated claimed)
    if length = 0 then none
    else some <| .verbatim source here.generated length
      (if markup.inScript source then scriptCapabilities else .all)

/-- The mappings of all runs, each between two neighbouring segments. -/
def runs (text generated : String) (markup : Markup.Document) : List Located → List Mapping
  | here :: next :: rest =>
    (run? text generated markup here next).toList ++
      runs text generated markup (next :: rest)
  | _ => []

/-- `m` goes on where `last` ends, on both sides and with the same capabilities. -/
def continues (last m : Mapping) : Bool :=
  last.generated.stop == m.generated.start && last.source.stop == m.source.start &&
    last.capabilities == m.capabilities

/-- Joins every mapping to the one before it that it continues. -/
def coalesceFrom (last : Mapping) : List Mapping → List Mapping
  | [] => [last]
  | m :: ms =>
    if continues last m then
      coalesceFrom ⟨⟨last.source.start, m.source.stop⟩, ⟨last.generated.start, m.generated.stop⟩,
        last.capabilities⟩ ms
    else last :: coalesceFrom m ms

def coalesce : List Mapping → List Mapping
  | [] => []
  | m :: ms => coalesceFrom m ms

/-- The mapping of the statements that follow all copied code. -/
def catchAll? (text generated : String) (copied : List Mapping) : Option Mapping :=
  let covered := (copied.getLast?.map (·.generated.stop)).getD 0
  (Script.trailingStatement? generated covered).map fun start =>
    ⟨⟨0, Text.size text⟩, ⟨start, Text.size generated⟩, catchAllCapabilities⟩

/-- Where a segment lies in the two texts. -/
def place (text generated : String) (unit : ColumnUnit) : Segment → Located :=
  let sourceLines := LineTable.ofText text
  let generatedLines := LineTable.ofText generated
  fun segment =>
    ⟨generatedLines.offsetOf generated segment.generated unit,
      segment.source.map fun p => sourceLines.offsetOf text p unit⟩

/-- The mappings of generated code, copied runs first and the catch-all last. Empty code has none. -/
def mappings (text generated : String) (segments : List Segment) (unit : ColumnUnit)
    (markup : Markup.Document) : Except UnorderedSegments (List Mapping) :=
  if generated.isEmpty then .ok []
  else do
    let located ← locate (place text generated unit) 0 0 segments
    let copied := coalesce (runs text generated markup located)
    return copied ++ (catchAll? text generated copied).toList

end Repair

end Polyglot
