import Polyglot.Text.Slice
import Polyglot.Text.Blank

/-!
# Front matter

A document may open with a block between two fences. A fence is three dashes followed by an ASCII blank
or the end of the text. Only White_Space stands before the opening fence; the closing fence is the first
later line that begins with one. Blanking the fences keeps every offset.
-/

namespace Polyglot

/-- Whether a document opens with a fenced block, and where. -/
inductive FrontMatter where
  | absent
  /-- The opening fence is at `start`, and no fence closes it. -/
  | opened (start : Nat)
  /-- The opening fence is at `start`; `stop` is right after the closing fence. -/
  | closed (start stop : Nat)
deriving DecidableEq, Repr, Inhabited

namespace FrontMatter

/-- The number of dashes of a fence. -/
def fenceLength : Nat := 3

/-- The octets begin with a fence. -/
def beginsFence : List Char → Bool
  | '-' :: '-' :: '-' :: rest => rest.head?.all Text.isAsciiBlank
  | _ => false

/-- The end of the first fence that stands right after a line feed among these octets, the first of which
has offset `i`. -/
def closingFence? : List Char → Nat → Option Nat
  | [], _ => none
  | c :: cs, i =>
    if c = '\n' && beginsFence cs then some (i + 1 + fenceLength) else closingFence? cs (i + 1)

/-- Finds the fences of a document. -/
def scan (s : String) : FrontMatter :=
  let start := Text.leadingWhite s
  let block := (Text.octets s).drop start
  if beginsFence block then
    match closingFence? (block.drop fenceLength) (start + fenceLength) with
    | some stop => .closed start stop
    | none => .opened start
  else .absent

def isPresent : FrontMatter → Bool
  | .absent => false
  | _ => true

def isClosed : FrontMatter → Bool
  | .closed .. => true
  | _ => false

/-- The block with its fences, in a text of `size` bytes. -/
def span? (f : FrontMatter) (size : Nat) : Option Span :=
  match f with
  | .absent => none
  | .opened start => some ⟨start, size⟩
  | .closed start stop => some ⟨start, stop⟩

/-- What stands between the fences, in a text of `size` bytes. -/
def contentSpan? (f : FrontMatter) (size : Nat) : Option Span :=
  match f with
  | .absent => none
  | .opened start => some ⟨min (start + fenceLength) size, size⟩
  | .closed start stop => some ⟨start + fenceLength, stop - fenceLength⟩

/-- The byte at offset `i` belongs to a fence. -/
def isFenceByte (f : FrontMatter) (i : Nat) : Bool :=
  match f with
  | .absent => false
  | .opened start => (Span.withLength start fenceLength).containsByte i
  | .closed start stop =>
    (Span.withLength start fenceLength).containsByte i ||
      (Span.mk (stop - fenceLength) stop).containsByte i

/-- The document up to the end of the block, with a space for each byte of a fence, so that offsets into
it are offsets into the document. None without front matter, or if the fences lie outside the text or
cut a character. -/
def blankFences (f : FrontMatter) (s : String) : Option String :=
  (f.span? (Text.size s)).bind fun block =>
    if block.stop ≤ Text.size s ∧ block.start + fenceLength ≤ block.stop then
      Text.ofBytes? <| ((Text.bytes s).take block.stop).mapIdx fun i b =>
        if f.isFenceByte i then 0x20 else b
    else none

end FrontMatter

end Polyglot
