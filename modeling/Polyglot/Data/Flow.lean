import Polyglot.Data.Token

/-!
# Flow collections

The bracketed notation. `flowExtent?` finds the bracket that closes a collection; the collection is then
read from the octets up to there, and each step goes forward. What a step may do is bounded by the octets
that are left, so reading ends on every text.
-/

namespace Polyglot.Data

/-- Blanks and line breaks. -/
def isFlowBlank (c : Char) : Bool := isBlank c || c == '\r' || c == '\n'

/-- A place inside a collection: its offset, the octet before it, and the octets up to the end of the
collection. -/
structure Cursor where
  offset : Nat
  previous : Option Char
  rest : List Char
deriving DecidableEq, Repr, Inhabited

namespace Cursor

/-- The place `k` octets further on. -/
def advance (c : Cursor) (k : Nat) : Cursor :=
  ⟨c.offset + min k c.rest.length, ((c.rest.take k).getLast?).or c.previous, c.rest.drop k⟩

/-- The offset where the collection ends. -/
def stop (c : Cursor) : Nat := c.offset + c.rest.length

@[simp] theorem length_rest_advance (c : Cursor) (k : Nat) :
    (c.advance k).rest.length = c.rest.length - k := by
  simp [advance]

theorem stop_advance (c : Cursor) (k : Nat) : (c.advance k).stop = c.stop := by
  simp [stop, advance]; omega

end Cursor

/-! ## The extent of a collection -/

/-- How many octets belong to the collection that they begin with, the bracket that brings `depth` back to
zero included. Quotes hide brackets; `quote` is the open one. A `#` after a blank hides the rest of its
line, the line feed included. -/
def extent? (depth : Nat) (quote : Option Char) (comment : Bool) (previous : Option Char) :
    List Char → Option Nat
  | [] => none
  | c :: cs =>
    if comment then (extent? depth none (c != '\n') (some c) cs).map (· + 1)
    else
      match quote with
      | some q =>
        if q = '"' ∧ c = '\\' then
          match cs with
          | [] => none
          | d :: cs => (extent? depth quote false (some d) cs).map (· + 2)
        else (extent? depth (if c = q then none else quote) false (some c) cs).map (· + 1)
      | none =>
        if c = '"' ∨ c = '\'' then (extent? depth (some c) false (some c) cs).map (· + 1)
        else if c = '[' ∨ c = '\x7b' then (extent? (depth + 1) none false (some c) cs).map (· + 1)
        else if c = ']' ∨ c = '\x7d' then
          if depth ≤ 1 then some 1 else (extent? (depth - 1) none false (some c) cs).map (· + 1)
        else
          (extent? depth none (c = '#' && previous.any isFlowBlank) (some c) cs).map (· + 1)

/-! ## Blanks and plain scalars -/

/-- How many octets of blanks and comments stand in front; a comment begins at a `#` after a blank. -/
def flowBlanks (comment : Bool) (previous : Option Char) : List Char → Nat
  | [] => 0
  | c :: cs =>
    if comment then flowBlanks (c != '\n') (some c) cs + 1
    else if isFlowBlank c then flowBlanks false (some c) cs + 1
    else if c = '#' ∧ previous.any isFlowBlank then flowBlanks true (some c) cs + 1
    else 0

/-- The place after blanks and comments. -/
def Cursor.skip (c : Cursor) : Cursor := c.advance (flowBlanks false c.previous c.rest)

/-- How many octets a plain scalar takes, blanks at its end included. It ends before a delimiter, a line
feed, a colon that separates, or a comment. -/
def flowPlainLength (previous : Option Char) : List Char → Nat
  | [] => 0
  | c :: cs =>
    if ",[]\x7b\x7d\n".toList.contains c then 0
    else if c = ':' ∧ cs.head?.all fun d => " \t\r\n,]\x7d".toList.contains d then 0
    else if c = '#' ∧ previous.any isBlank then 0
    else flowPlainLength (some c) cs + 1

/-- A plain scalar inside a collection. -/
def flowPlain (s : String) (c : Cursor) : Except TornCharacter (Taken Scalar) := do
  let n := flowPlainLength none c.rest
  let kept := ((c.rest.take n).reverse.dropWhile isFlowBlank).length
  return ⟨← plainScalar s (.withLength c.offset kept), n, []⟩

/-- A scalar inside a collection that is quoted if it begins with a quote. -/
def flowKey (s : String) (c : Cursor) : Except TornCharacter (Taken Scalar) :=
  if c.rest.head?.any fun q => q == '"' || q == '\'' then quotedScalar s c.offset c.rest
  else flowPlain s c

/-- After an entry: a comma is taken, the closing bracket left, anything else is an error and passed
over. -/
def finishEntry (c : Cursor) (closer : Char) : Taken Unit :=
  let blank := flowBlanks false c.previous c.rest
  match c.rest.drop blank with
  | [] => ⟨(), blank, []⟩
  | d :: _ =>
    if d = ',' then ⟨(), blank + 1, []⟩
    else if d = closer then ⟨(), blank, []⟩
    else ⟨(), blank + 1, [⟨.unexpectedContent, .withLength (c.offset + blank) 1⟩]⟩

/-- The error for a key that an earlier one equals. -/
def duplicateErrors (seen : List String) (key : Scalar) : List Error :=
  if seen.contains key.key then [⟨.duplicateKey, key.span⟩] else []

/-! ## Collections -/

mutual

/-- A value inside a collection. -/
def flowTree (s : String) (c : Cursor) : Except TornCharacter (Taken Tree) :=
  let blank := flowBlanks false c.previous c.rest
  let here := c.advance blank
  match _h : here.rest with
  | [] => .ok ⟨.scalar (.missing here.offset), blank, []⟩
  | '[' :: _ => do
    let items ← flowItems s here.offset (here.advance 1)
    return ⟨.sequence true (.withLength here.offset (1 + items.used)) items.value,
      blank + 1 + items.used, items.errors⟩
  | '\x7b' :: _ => do
    let pairs ← flowPairs s here.offset [] (here.advance 1)
    return ⟨.mapping true (.withLength here.offset (1 + pairs.used)) pairs.value,
      blank + 1 + pairs.used, pairs.errors⟩
  | _ :: _ => do
    let scalar ← flowKey s here
    return ⟨.scalar scalar.value, blank + scalar.used, scalar.errors⟩
termination_by 2 * c.rest.length + 1
decreasing_by
  all_goals
    have := congrArg List.length _h
    simp only [here, Cursor.length_rest_advance, List.length_cons] at this ⊢
    omega

/-- The items of a sequence whose bracket is at `opened`, and its closing bracket. -/
def flowItems (s : String) (opened : Nat) (c : Cursor) : Except TornCharacter (Taken (List Tree)) :=
  let blank := flowBlanks false c.previous c.rest
  let here := c.advance blank
  match _h : here.rest with
  | [] => .ok ⟨[], blank, [⟨.unterminatedFlow, ⟨opened, c.stop⟩⟩]⟩
  | ']' :: _ => .ok ⟨[], blank + 1, []⟩
  | ',' :: _ => do
    let more ← flowItems s opened (here.advance 1)
    return ⟨more.value, blank + 1 + more.used, more.errors⟩
  | _ :: _ => do
    let item ← flowTree s here
    let finish := finishEntry (here.advance item.used) ']'
    let step := max 1 (item.used + finish.used)
    let more ← flowItems s opened (here.advance step)
    return ⟨item.value :: more.value, blank + step + more.used,
      item.errors ++ finish.errors ++ more.errors⟩
termination_by 2 * c.rest.length + 2
decreasing_by
  all_goals
    have := congrArg List.length _h
    simp only [here, Cursor.length_rest_advance, List.length_cons] at this ⊢
    omega

/-- The pairs of a mapping whose brace is at `opened`, after pairs with the keys `seen`, and its closing
brace. -/
def flowPairs (s : String) (opened : Nat) (seen : List String) (c : Cursor) :
    Except TornCharacter (Taken (List (Scalar × Tree))) :=
  let blank := flowBlanks false c.previous c.rest
  let here := c.advance blank
  match _h : here.rest with
  | [] => .ok ⟨[], blank, [⟨.unterminatedFlow, ⟨opened, c.stop⟩⟩]⟩
  | '\x7d' :: _ => .ok ⟨[], blank + 1, []⟩
  | ',' :: _ => do
    let more ← flowPairs s opened seen (here.advance 1)
    return ⟨more.value, blank + 1 + more.used, more.errors⟩
  | _ :: _ => do
    let key ← flowKey s here
    let after := here.advance key.used
    let colon := after.skip
    let value ← (if colon.rest.head? = some ':' then
        (flowTree s (here.advance (key.used + (colon.offset - after.offset) + 1))).map
          fun t => { t with used := t.used + 1 }
      else .ok ⟨.scalar (.missing colon.offset), 0, []⟩)
    let used := key.used + (colon.offset - after.offset) + value.used
    let finish := finishEntry (here.advance used) '\x7d'
    let step := max 1 (used + finish.used)
    let more ← flowPairs s opened (key.value.key :: seen) (here.advance step)
    return ⟨(key.value, value.value) :: more.value, blank + step + more.used,
      key.errors ++ value.errors ++ duplicateErrors seen key.value ++ finish.errors ++ more.errors⟩
termination_by 2 * c.rest.length + 2
decreasing_by
  all_goals
    have := congrArg List.length _h
    simp only [here, Cursor.length_rest_advance, List.length_cons] at this ⊢
    omega

end

end Polyglot.Data
