/-!
# Blank characters

Two classes of blanks: the Unicode property White_Space, and the five ASCII blanks of markup.
-/

namespace Polyglot

namespace Text

/-- The Unicode property White_Space. -/
def isWhite (c : Char) : Bool :=
  let n := c.toNat
  (9 ≤ n && n ≤ 13) || n == 0x20 || n == 0x85 || n == 0xA0 || n == 0x1680 ||
    (0x2000 ≤ n && n ≤ 0x200A) || n == 0x2028 || n == 0x2029 || n == 0x202F || n == 0x205F ||
    n == 0x3000

/-- Every blank of the standard library is White_Space. -/
theorem isWhite_of_isWhitespace {c : Char} (h : c.isWhitespace = true) : isWhite c = true := by
  simp only [Char.isWhitespace, Bool.or_eq_true, decide_eq_true_eq] at h
  rcases h with ((rfl | rfl) | rfl) | rfl <;> decide

/-- Space, tab, line feed, form feed or carriage return. -/
def isAsciiBlank (c : Char) : Bool :=
  match c with
  | ' ' | '\t' | '\n' | '\x0c' | '\r' => true
  | _ => false

/-- The byte length of the White_Space that `s` begins with. -/
def leadingWhite (s : String) : Nat :=
  (s.toList.takeWhile isWhite).foldl (fun n c => n + c.utf8Size) 0

/-- The text without White_Space at either end. -/
def trim (s : String) : String :=
  String.ofList ((s.toList.dropWhile isWhite).reverse.dropWhile isWhite).reverse

/-- The text holds nothing but White_Space. -/
def isAllWhite (s : String) : Bool := s.toList.all isWhite

end Text

end Polyglot
