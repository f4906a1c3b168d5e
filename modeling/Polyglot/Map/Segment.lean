import Polyglot.Text.Lines

/-!
# Segments

A compiler's map is a list of segments: places in the generated code, each with the place in the source it
stems from, or with none.
-/

namespace Polyglot

structure Segment where
  generated : Place
  source : Option Place
deriving DecidableEq, Repr, Inhabited

/-- The offset of a place in a text. -/
def LineTable.offsetOf (t : LineTable) (s : String) (p : Place) (unit : ColumnUnit) : Nat :=
  t.offsetIn s p.line p.column unit

end Polyglot
