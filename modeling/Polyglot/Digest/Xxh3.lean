/-!
# The 64-bit XXH3 hash with seed 0

Short inputs of up to 16, 128 and 240 bytes have formulas of their own; longer ones run through eight
accumulators, 64 bytes at a time.
-/

namespace Polyglot.Digest

/-- The default secret. -/
private def secret : ByteArray := ⟨#[
  0xb8, 0xfe, 0x6c, 0x39, 0x23, 0xa4, 0x4b, 0xbe, 0x7c, 0x01, 0x81, 0x2c, 0xf7, 0x21, 0xad, 0x1c,
  0xde, 0xd4, 0x6d, 0xe9, 0x83, 0x90, 0x97, 0xdb, 0x72, 0x40, 0xa4, 0xa4, 0xb7, 0xb3, 0x67, 0x1f,
  0xcb, 0x79, 0xe6, 0x4e, 0xcc, 0xc0, 0xe5, 0x78, 0x82, 0x5a, 0xd0, 0x7d, 0xcc, 0xff, 0x72, 0x21,
  0xb8, 0x08, 0x46, 0x74, 0xf7, 0x43, 0x24, 0x8e, 0xe0, 0x35, 0x90, 0xe6, 0x81, 0x3a, 0x26, 0x4c,
  0x3c, 0x28, 0x52, 0xbb, 0x91, 0xc3, 0x00, 0xcb, 0x88, 0xd0, 0x65, 0x8b, 0x1b, 0x53, 0x2e, 0xa3,
  0x71, 0x64, 0x48, 0x97, 0xa2, 0x0d, 0xf9, 0x4e, 0x38, 0x19, 0xef, 0x46, 0xa9, 0xde, 0xac, 0xd8,
  0xa8, 0xfa, 0x76, 0x3f, 0xe3, 0x9c, 0x34, 0x3f, 0xf9, 0xdc, 0xbb, 0xc7, 0xc7, 0x0b, 0x4f, 0x1d,
  0x8a, 0x51, 0xe0, 0x4b, 0xcd, 0xb4, 0x59, 0x31, 0xc8, 0x9f, 0x7e, 0xc9, 0xd9, 0x78, 0x73, 0x64,
  0xea, 0xc5, 0xac, 0x83, 0x34, 0xd3, 0xeb, 0xc3, 0xc5, 0x81, 0xa0, 0xff, 0xfa, 0x13, 0x63, 0xeb,
  0x17, 0x0d, 0xdd, 0x51, 0xb7, 0xf0, 0xda, 0x49, 0xd3, 0x16, 0x55, 0x26, 0x29, 0xd4, 0x68, 0x9e,
  0x2b, 0x16, 0xbe, 0x58, 0x7d, 0x47, 0xa1, 0xfc, 0x8f, 0xf8, 0xb8, 0xd1, 0x7a, 0xd0, 0x31, 0xce,
  0x45, 0xcb, 0x3a, 0x8f, 0x95, 0x16, 0x04, 0x28, 0xaf, 0xd7, 0xfb, 0xca, 0xbb, 0x4b, 0x40, 0x7e]⟩

private def prime32a : UInt64 := 0x9E3779B1
private def prime32b : UInt64 := 0x85EBCA77
private def prime32c : UInt64 := 0xC2B2AE3D
private def prime64a : UInt64 := 0x9E3779B185EBCA87
private def prime64b : UInt64 := 0xC2B2AE3D27D4EB4F
private def prime64c : UInt64 := 0x165667B19E3779F9
private def prime64d : UInt64 := 0x85EBCA77C2B2AE63
private def prime64e : UInt64 := 0x27D4EB2F165667C5

private def byteAt (b : ByteArray) (i : Nat) : UInt64 :=
  if h : i < b.size then (b[i]).toUInt64 else 0

/-- The little-endian number of the `n` bytes from `i` on. -/
private def littleEndian (b : ByteArray) (i : Nat) : Nat → UInt64
  | 0 => 0
  | n + 1 => byteAt b i ||| (littleEndian b (i + 1) n <<< 8)

private def word32 (b : ByteArray) (i : Nat) : UInt64 := littleEndian b i 4
private def word64 (b : ByteArray) (i : Nat) : UInt64 := littleEndian b i 8

private def rotateLeft (x : UInt64) (n : UInt64) : UInt64 := (x <<< n) ||| (x >>> (64 - n))

/-- The eight bytes in the opposite order. -/
private def swapBytes (x : UInt64) : UInt64 :=
  (List.range 8).foldl (fun acc (i : Nat) => (acc <<< 8) ||| ((x >>> (8 * i).toUInt64) &&& 0xFF)) 0

/-- Upper and lower half of the 128-bit product, combined by exclusive or. -/
private def foldedProduct (x y : UInt64) : UInt64 :=
  let p := x.toNat * y.toNat
  p.toUInt64 ^^^ (p / 0x10000000000000000).toUInt64

private def avalanche (h : UInt64) : UInt64 :=
  let h := (h ^^^ (h >>> 37)) * 0x165667919E3779F9
  h ^^^ (h >>> 32)

private def avalancheShort (h : UInt64) : UInt64 :=
  let h := (h ^^^ (h >>> 33)) * prime64b
  let h := (h ^^^ (h >>> 29)) * prime64c
  h ^^^ (h >>> 32)

private def mix16 (b : ByteArray) (i s : Nat) : UInt64 :=
  foldedProduct (word64 b i ^^^ word64 secret s) (word64 b (i + 8) ^^^ word64 secret (s + 8))

private def hashUpTo16 (b : ByteArray) : UInt64 :=
  let n := b.size
  let len := n.toUInt64
  if n = 0 then avalancheShort (word64 secret 56 ^^^ word64 secret 64)
  else if n ≤ 3 then
    let combined := (byteAt b 0 <<< 16) ||| (byteAt b (n / 2) <<< 24) ||| byteAt b (n - 1) ||| (len <<< 8)
    avalancheShort (combined ^^^ (word32 secret 0 ^^^ word32 secret 4))
  else if n ≤ 8 then
    let input := word32 b (n - 4) + (word32 b 0 <<< 32)
    let h := input ^^^ (word64 secret 8 ^^^ word64 secret 16)
    let h := (h ^^^ rotateLeft h 49 ^^^ rotateLeft h 24) * 0x9FB21C651E98DF25
    let h := (h ^^^ ((h >>> 35) + len)) * 0x9FB21C651E98DF25
    h ^^^ (h >>> 28)
  else
    let lo := word64 b 0 ^^^ (word64 secret 24 ^^^ word64 secret 32)
    let hi := word64 b (n - 8) ^^^ (word64 secret 40 ^^^ word64 secret 48)
    avalanche (len + swapBytes lo + hi + foldedProduct lo hi)

/-- Pairs of blocks from the two ends towards the middle. -/
private def hashUpTo128 (b : ByteArray) : UInt64 :=
  let n := b.size
  avalanche <| (List.range ((n - 1) / 32 + 1)).foldl
    (fun acc i => acc + mix16 b (16 * i) (32 * i) + mix16 b (n - 16 * (i + 1)) (32 * i + 16))
    (n.toUInt64 * prime64a)

private def hashUpTo240 (b : ByteArray) : UInt64 :=
  let n := b.size
  let head := (List.range 8).foldl (fun acc i => acc + mix16 b (16 * i) (16 * i))
    (n.toUInt64 * prime64a)
  let body := (List.range (n / 16 - 8)).foldl
    (fun acc i => acc + mix16 b (16 * (i + 8)) (16 * i + 3)) (avalanche head)
  avalanche (body + mix16 b (n - 16) (136 - 17))

private def addAt (acc : Array UInt64) (i : Nat) (x : UInt64) : Array UInt64 := acc.modify i (· + x)

/-- Takes 64 bytes from offset `i` into the accumulators, with the secret from `s` on. -/
private def accumulate (b : ByteArray) (acc : Array UInt64) (i s : Nat) : Array UInt64 :=
  (List.range 8).foldl (fun acc (k : Nat) =>
    let value := word64 b (i + 8 * k)
    let key := value ^^^ word64 secret (s + 8 * k)
    addAt (addAt acc (k ^^^ 1) value) k ((key &&& (0xFFFFFFFF : UInt64)) * (key >>> 32))) acc

private def scramble (acc : Array UInt64) : Array UInt64 :=
  acc.mapIdx fun k (a : UInt64) => ((a ^^^ (a >>> 47)) ^^^ word64 secret (128 + 8 * k)) * prime32a

private def accumulateStripes (b : ByteArray) (acc : Array UInt64) (start count : Nat) :
    Array UInt64 :=
  (List.range count).foldl (fun acc k => accumulate b acc (start + 64 * k) (8 * k)) acc

private def hashLong (b : ByteArray) : UInt64 :=
  let n := b.size
  let start := #[prime32c, prime64a, prime64b, prime64c, prime64d, prime32b, prime64e, prime32a]
  let blocks := (n - 1) / 1024
  let acc := (List.range blocks).foldl
    (fun acc k => scramble (accumulateStripes b acc (1024 * k) 16)) start
  let acc := accumulateStripes b acc (1024 * blocks) ((n - 1 - 1024 * blocks) / 64)
  let acc := accumulate b acc (n - 64) 121
  avalanche <| (List.range 4).foldl
    (fun h k => h + foldedProduct (acc.getD (2 * k) 0 ^^^ word64 secret (11 + 16 * k))
      (acc.getD (2 * k + 1) 0 ^^^ word64 secret (19 + 16 * k)))
    (n.toUInt64 * prime64a)

/-- The XXH3 hash of the bytes, 64 bits wide, with seed 0. -/
def xxh3 (b : ByteArray) : UInt64 :=
  if b.size ≤ 16 then hashUpTo16 b
  else if b.size ≤ 128 then hashUpTo128 b
  else if b.size ≤ 240 then hashUpTo240 b
  else hashLong b

end Polyglot.Digest
