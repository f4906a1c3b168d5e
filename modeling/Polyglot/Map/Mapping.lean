import Polyglot.Text.Slice
import Polyglot.Map.Capabilities

/-!
# Mappings

A mapping ties a span of the source to a span of a generated text. Both ends of a span belong to it, so that
a cursor right after a token still resolves. Where the spans differ in length, distances are cut to the
shorter one.
-/

namespace Polyglot

structure Mapping where
  source : Span
  generated : Span
  capabilities : Capabilities
deriving DecidableEq, Repr, Inhabited

namespace Mapping

/-- A mapping of `length` bytes on both sides. -/
def verbatim (source generated length : Nat) (capabilities : Capabilities) : Mapping :=
  ⟨.withLength source length, .withLength generated length, capabilities⟩

def allows (m : Mapping) (filter : Capabilities) : Bool := m.capabilities.allows filter

/-- The offset in `target` as far from its start as `offset` is from the start of `span`. -/
def carry (span target : Span) (offset : Nat) : Option Nat :=
  if span.contains offset then some (target.start + min (offset - span.start) target.length)
  else none

def toGenerated? (m : Mapping) (offset : Nat) : Option Nat := carry m.source m.generated offset

def toSource? (m : Mapping) (offset : Nat) : Option Nat := carry m.generated m.source offset

/-- Both ends of a span through the same mapping. -/
def span? (f : Nat → Option Nat) (r : Span) : Option Span := do
  let start ← f r.start
  let stop ← f r.stop
  return ⟨start, stop⟩

/-- Both sides hold the same text. -/
def isVerbatim (m : Mapping) (source generated : String) : Bool :=
  match m.source.slice? source, m.generated.slice? generated with
  | some a, some b => a == b
  | _, _ => false

/-- The order of mappings in a map: by start and then by end of the generated span. -/
def isBefore (a b : Mapping) : Bool :=
  a.generated.start < b.generated.start ||
    (a.generated.start == b.generated.start && a.generated.stop ≤ b.generated.stop)

theorem carry_start {span target : Span} (h : span.start ≤ span.stop) :
    carry span target span.start = some target.start := by
  simp [carry, Span.contains, h]

end Mapping

end Polyglot
