/-!
# Spans

A span is a pair of byte offsets into a text. It is read as half open, except where a cursor right
after the last byte still counts (`contains`). Spans may be inverted; an inverted span is empty.
-/

namespace Polyglot

/-- The bytes from `start` up to `stop`. -/
structure Span where
  start : Nat
  stop : Nat
deriving DecidableEq, Repr, Inhabited

namespace Span

/-- The empty span at `offset`. -/
def emptyAt (offset : Nat) : Span := ⟨offset, offset⟩

/-- The `len` bytes from `start` on. -/
def withLength (start len : Nat) : Span := ⟨start, start + len⟩

/-- The offset lies in the span or right after its last byte. -/
def contains (s : Span) (offset : Nat) : Bool := s.start ≤ offset && offset ≤ s.stop

/-- The offset is that of a byte of the span. -/
def containsByte (s : Span) (offset : Nat) : Bool := s.start ≤ offset && offset < s.stop

/-- Both ends of `t` lie between the ends of `s`. -/
def containsSpan (s t : Span) : Bool := s.start ≤ t.start && t.stop ≤ s.stop

/-- The number of bytes; none in an inverted span. -/
def length (s : Span) : Nat := s.stop - s.start

def isEmpty (s : Span) : Bool := s.stop ≤ s.start

/-- The same span `delta` bytes further on. -/
def shift (s : Span) (delta : Nat) : Span := ⟨s.start + delta, s.stop + delta⟩

instance : ToString Span where
  toString s := toString s.start ++ ".." ++ toString s.stop

theorem contains_iff {s : Span} {i : Nat} : s.contains i = true ↔ s.start ≤ i ∧ i ≤ s.stop := by
  simp [contains]

theorem containsByte_iff {s : Span} {i : Nat} :
    s.containsByte i = true ↔ s.start ≤ i ∧ i < s.stop := by
  simp [containsByte]

@[simp] theorem length_withLength (i n : Nat) : (withLength i n).length = n := by
  simp [withLength, length]

@[simp] theorem length_shift (s : Span) (d : Nat) : (s.shift d).length = s.length := by
  simp [shift, length]; omega

end Span

end Polyglot
