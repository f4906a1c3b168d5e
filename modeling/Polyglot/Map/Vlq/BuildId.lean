import Polyglot.Text.Quoted

/-!
# Build identifiers

A source map may name the build it belongs to: by a 128-bit identifier or by a time stamp, each followed by
an age. Behind eight characters of an identifier's age, anything may follow.
-/

namespace Polyglot

namespace Vlq

/-- A 32-bit number in hexadecimal digits. A plus sign may stand in front. -/
def isWord (cs : List Char) : Bool :=
  let digits := if cs.head? = some '+' then cs.tail else cs
  !digits.isEmpty && (Text.spelled? 16 digits).any (· < 0x100000000)

/-- Thirty-two hexadecimal digits; with `dashes`, a dash follows the 8th, 12th, 16th and 20th. -/
def isUuid (dashes : Bool) (cs : List Char) : Bool :=
  let groups := if dashes then [8, 4, 4, 4, 12] else [32]
  go groups cs
where
  /-- Groups of so many digits, with a dash between two of them. -/
  go : List Nat → List Char → Bool
    | [], cs => cs.isEmpty
    | [n], cs => cs.length = n && (Text.spelled? 16 cs).isSome
    | n :: ns, cs =>
      n ≤ cs.length && (Text.spelled? 16 (cs.take n)).isSome && cs[n]? == some '-' &&
        go ns (cs.drop (n + 1))

/-- A time stamp of eight digits and an age, or an identifier with or without an age, in ASCII. Either all parts
are separated by dashes or none. -/
def isBuildId (s : String) : Bool :=
  let cs := s.toList
  let dashes := cs[8]? == some '-'
  let dash := if dashes then 1 else 0
  if 9 + dash ≤ cs.length && cs.length ≤ 16 + dash then
    isWord (cs.take 8) && isWord (cs.drop (8 + dash))
  else
    let width := if dashes then 36 else 32
    let age := cs.drop width
    cs.all (·.toNat < 0x80) && isUuid dashes (cs.take width) &&
      (age.isEmpty || ((age.head? == some '-') == dashes && isWord ((age.drop dash).take 8)))

end Vlq

end Polyglot
