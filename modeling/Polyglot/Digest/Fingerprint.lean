import Polyglot.Digest.Xxh3

/-!
# Content digests

The digest of a text, and the fingerprint of a sequence of parts. A text part is written with its length
in front, so that parts cannot run into each other.
-/

namespace Polyglot.Digest

/-- The digest of a text. -/
def ofText (s : String) : UInt64 := xxh3 s.toUTF8

/-- One part of a fingerprint. -/
inductive Part where
  | text (s : String)
  | number (n : UInt32)
deriving DecidableEq, Repr

/-- The `n` low bytes of `x`, lowest first. -/
def littleEndianBytes (x : Nat) : Nat → List UInt8
  | 0 => []
  | n + 1 => x.toUInt8 :: littleEndianBytes (x / 256) n

/-- A text is its length in eight bytes and then its own bytes, a number its four bytes. -/
def Part.bytes : Part → List UInt8
  | .text s => littleEndianBytes s.utf8ByteSize 8 ++ s.toByteArray.data.toList
  | .number n => littleEndianBytes n.toNat 4

/-- The digest of the bytes of all parts in order. -/
def fingerprint (parts : List Part) : UInt64 := xxh3 ⟨(parts.flatMap Part.bytes).toArray⟩

/-- Sixteen lower-case hexadecimal digits. -/
def hex16 (h : UInt64) : String :=
  let digits := Nat.toDigits 16 h.toNat
  String.ofList (List.replicate (16 - digits.length) '0' ++ digits)

end Polyglot.Digest
