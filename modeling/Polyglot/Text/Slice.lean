import Polyglot.Text.Span

/-!
# Bytes and slices of a text

A text is a `String`, addressed by byte offsets of its UTF-8 form. A slice exists only between two
character boundaries.
-/

namespace Polyglot

namespace Text

/-- The UTF-8 bytes of `s`. -/
def bytes (s : String) : List UInt8 := s.toByteArray.data.toList

/-- The number of UTF-8 bytes of `s`. -/
abbrev size (s : String) : Nat := s.utf8ByteSize

@[simp] theorem length_bytes (s : String) : (bytes s).length = size s := rfl

/-- The byte at offset `i`. -/
def byte? (s : String) (i : Nat) : Option UInt8 :=
  if h : i < s.utf8ByteSize then some (s.getUTF8Byte ⟨i⟩ h) else none

theorem byte?_eq_bytes (s : String) (i : Nat) : byte? s i = (bytes s)[i]? := by
  unfold byte?
  split
  · next h =>
    have h' : i < s.toByteArray.data.toList.length := h
    rw [bytes, List.getElem?_eq_getElem h']
    rfl
  · next h =>
    symm
    rw [List.getElem?_eq_none_iff]
    exact Nat.le_of_not_lt h

/-- A byte as the character of its number: below 128 the ASCII character that it encodes, from 128 on a
part of a longer character, which no ASCII character equals. -/
def octet (b : UInt8) : Char := Char.ofNat b.toNat

/-- The text byte by byte, each byte as the character of its number. -/
def octets (s : String) : List Char := (bytes s).map octet

@[simp] theorem length_octets (s : String) : (octets s).length = size s := by simp [octets]

/-- The octet at offset `i`. -/
def octet? (s : String) (i : Nat) : Option Char := (byte? s i).map octet

theorem octet?_eq_octets (s : String) (i : Nat) : octet? s i = (octets s)[i]? := by
  simp [octet?, octets, byte?_eq_bytes]

/-- Offset `i` is the start of a character of `s` or its end. -/
def isBoundary (s : String) (i : Nat) : Bool := String.Pos.Raw.isValid s ⟨i⟩

/-- The text of these bytes, if they are well-formed UTF-8. -/
def ofBytes? (bs : List UInt8) : Option String := String.fromUTF8? ⟨bs.toArray⟩

end Text

namespace Span

/-- The part of `s` that the span covers; none if the span is inverted, leaves the text, or cuts a
character. -/
def slice? (r : Span) (s : String) : Option String :=
  if r.start ≤ r.stop then
    (s.pos? ⟨r.start⟩).bind fun b => (s.pos? ⟨r.stop⟩).map fun e => s.extract b e
  else none

/-- The part of `s` between two offsets, both clamped to the text; empty between offsets that cut a
character. -/
def clampedSlice (start stop : Nat) (s : String) : String :=
  let stop := min stop (Text.size s)
  (slice? ⟨min start stop, stop⟩ s).getD ""

end Span

end Polyglot
