/-!
# Numbers of variable length

Source maps write a number in base-64 digits of five bits each, lowest bits first; a sixth bit says that more
digits follow. The lowest bit of the whole is the sign. `numbers` reads back what `ofNumbers` writes.
-/

namespace Polyglot

namespace Vlq

/-- Why a source map cannot be read. -/
inductive Fault where
  | badJson
  | leftover
  | overflow
  | fieldCount (n : Nat)
  | badSource (n : Nat)
  | badName (n : Nat)
  | incompatible
  | expectedNewline
  | badDigit (c : Char)
deriving DecidableEq, Repr, Inhabited

def Fault.message : Fault → String
  | .badJson => "bad json"
  | .leftover => "leftover cur/shift in vlq decode"
  | .overflow => "vlq decode caused an overflow"
  | .fieldCount n => "got " ++ toString n ++ " segments, expected 4 or 5"
  | .badSource n => "bad reference to source #" ++ toString n
  | .badName n => "bad reference to name #" ++ toString n
  | .incompatible => "encountered incompatible sourcemap format"
  | .expectedNewline => "expected newline"
  | .badDigit c => "invalid base64 character: " ++ c.toString

/-- The base-64 digits in the order of their values. -/
def alphabet : List Char :=
  "ABCDEFGHIJKLMNOPQRSTUVWXYZabcdefghijklmnopqrstuvwxyz0123456789+/".toList

/-- The value of a base-64 digit. -/
def digit? (c : Char) : Option Nat := alphabet.findIdx? (· == c)

/-- The digit of a value below 64. -/
def digit (n : Nat) : Char := alphabet.getD n 'A'

/-! ## Reading -/

/-- The five bits of a digit, and whether more digits follow. What is no digit counts as 31 with more to
follow, but the delete character as 30. -/
def fiveBits (c : Char) : Nat × Bool :=
  match digit? c with
  | some d => (d % 32, 32 ≤ d)
  | none => (if c = '\x7f' then 30 else 31, true)

/-- A number from its bits: the lowest is the sign. -/
def ofBits (bits : Int) : Int := if bits % 2 = 0 then bits / 2 else -(bits / 2)

/-- The numbers that digits spell, in 64-bit words: `bits` holds what has been read of the current one, `shift`
bits wide. -/
def numbers (bits : Int) (shift : Nat) : List Char → Except Fault (List Int)
  | [] => if bits = 0 ∧ shift = 0 then .ok [] else .error .leftover
  | c :: cs =>
    if 64 ≤ shift then .error .overflow
    else
      let (five, more) := fiveBits c
      let bits := bits + ((five <<< shift : Nat) : Int).bmod 0x10000000000000000
      if more then numbers bits (shift + 5) cs
      else do
        let rest ← numbers 0 0 cs
        return ofBits bits :: rest

/-! ## Writing -/

/-- The bits of a number: the lowest is the sign. -/
def toBits (n : Int) : Nat := 2 * n.natAbs + if n < 0 then 1 else 0

/-- The digits of bits. -/
def digitsOf (bits : Nat) : List Char :=
  if bits < 32 then [digit bits] else digit (bits % 32 + 32) :: digitsOf (bits / 32)
termination_by bits

/-- The digits of numbers, one after the other. -/
def ofNumbers (ns : List Int) : List Char := ns.flatMap fun n => digitsOf (toBits n)

theorem ofBits_toBits (n : Int) : ofBits (toBits n) = n := by
  unfold ofBits toBits
  split <;> split <;> omega

end Vlq

end Polyglot
