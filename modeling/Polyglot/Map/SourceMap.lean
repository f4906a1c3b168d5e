import Polyglot.Map.Mapping

/-!
# Source maps

The mappings of one generated text, kept in the order of their generated spans. A lookup answers with the
first mapping in that order that holds the offset and allows the filter. Lookups by generated offset
find their window by binary search, which is right when the ends ascend as well.
-/

namespace Polyglot

/-- The first index from `lo` on, below `hi`, where `p` fails, found by halving; `p` has to hold up to some
index and fail from there on. -/
def partitionPoint (p : α → Bool) (xs : Array α) (lo hi : Nat) : Nat :=
  if h : lo < hi then
    let mid := (lo + hi) / 2
    if (xs[mid]?).any p then partitionPoint p xs (mid + 1) hi else partitionPoint p xs lo mid
  else lo
termination_by hi - lo

/-- The elements from index `i` on, as long as `p` holds. -/
def takeWhileFrom (p : α → Bool) (xs : Array α) (i : Nat) : List α :=
  if h : i < xs.size then if p xs[i] then xs[i] :: takeWhileFrom p xs (i + 1) else [] else []
termination_by xs.size - i

structure SourceMap where
  mappings : Array Mapping
deriving DecidableEq, Repr, Inhabited

namespace SourceMap

def empty : SourceMap := ⟨#[]⟩

/-- Sorts the mappings; those with equal generated spans keep their order. -/
def ofList (ms : List Mapping) : SourceMap := ⟨(ms.mergeSort Mapping.isBefore).toArray⟩

/-- Adds a mapping behind all that are not after it. -/
def insert (t : SourceMap) (m : Mapping) : SourceMap :=
  let i := partitionPoint (·.isBefore m) t.mappings 0 t.mappings.size
  ⟨(t.mappings.extract 0 i).push m ++ t.mappings.extract i t.mappings.size⟩

def toList (t : SourceMap) : List Mapping := t.mappings.toList

/-- The mappings whose generated span holds the offset. -/
def candidates (t : SourceMap) (offset : Nat) : List Mapping :=
  let first := partitionPoint (fun m => m.generated.stop < offset) t.mappings 0 t.mappings.size
  (takeWhileFrom (fun m => m.generated.start ≤ offset) t.mappings first).filter fun m =>
    m.generated.contains offset

/-- The first mapping that holds a source offset. -/
def findBySource? (t : SourceMap) (offset : Nat) (filter : Capabilities) : Option Mapping :=
  t.toList.find? fun m => m.allows filter && m.source.contains offset

/-- The first mapping that holds a generated offset. -/
def findByGenerated? (t : SourceMap) (offset : Nat) (filter : Capabilities) : Option Mapping :=
  (t.candidates offset).find? (·.allows filter)

/-- A source offset in the generated text, through the first mapping that holds it. -/
def toGenerated? (t : SourceMap) (offset : Nat) (filter : Capabilities) : Option Nat :=
  (t.toList.filter (·.allows filter)).findSome? (·.toGenerated? offset)

/-- A generated offset in the source, through the first mapping that holds it. -/
def toSource? (t : SourceMap) (offset : Nat) (filter : Capabilities) : Option Nat :=
  (t.findByGenerated? offset filter).bind (·.toSource? offset)

/-- Both ends of a span, each on its own, if that does not invert it. -/
def endsOf? (f : Nat → Option Nat) (r : Span) : Option Span := do
  let start ← f r.start
  let stop ← f r.stop
  if start ≤ stop then some ⟨start, stop⟩ else none

/-- A source span in the generated text: through one mapping that holds both ends, or else each end on
its own. -/
def toGeneratedSpan? (t : SourceMap) (r : Span) (filter : Capabilities) : Option Span :=
  ((t.toList.filter (·.allows filter)).findSome? fun m => Mapping.span? m.toGenerated? r).or
    (endsOf? (t.toGenerated? · filter) r)

/-- A generated span in the source: through one mapping that holds both ends, or else each end on its
own. -/
def toSourceSpan? (t : SourceMap) (r : Span) (filter : Capabilities) : Option Span :=
  (((t.candidates r.start).filter (·.allows filter)).findSome? fun m =>
      Mapping.span? m.toSource? r).or
    (endsOf? (t.toSource? · filter) r)

end SourceMap

end Polyglot
