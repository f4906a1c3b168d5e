import Polyglot.Data.Flow

/-!
# Block collections

The indented notation. Structure is decided line by line from the column of the content; a value on a line
is a scalar or a flow collection, which may go on over deeper lines. Reading never stops at an error: the
offending line is recorded and passed over. Each step takes at least one line, or moves the content of the
current line to the right.
-/

namespace Polyglot.Data

/-! ## Values that begin on a line

`rest` holds the lines after the current one; `used` counts how many of them belong to the value. -/

/-- The octets at a span. -/
def octetsAt (s : String) (r : Span) : List Char :=
  (((Text.bytes s).drop r.start).take r.length).map Text.octet

/-- A line goes on with the plain scalar of a value under `parentIndent`: it is deeper, no comment and
no pair. -/
def continuesPlain (parentIndent : Nat) (l : Line) : Bool :=
  parentIndent < l.indent && !l.isBlank && (findKey? l.content).isNone

/-- The later lines of a plain scalar: the text folded behind its first line, where its last line ends, and
the number of lines. A line break folds into a space, each empty line into a line feed. -/
def foldPlain (s : String) (parentIndent : Nat) (empty : Nat) :
    List Line → Except TornCharacter (Option (String × Nat × Nat))
  | [] => .ok none
  | l :: ls =>
    if l.isEmpty then foldPlain s parentIndent (empty + 1) ls
    else if continuesPlain parentIndent l then do
      let piece := Span.withLength l.contentStart (plainLength l.content)
      let text ← tokenText s piece
      let joint := if empty = 0 then " " else String.ofList (List.replicate empty '\n')
      let more ← foldPlain s parentIndent 0 ls
      return match more with
        | some (tail, stop, used) => some (joint ++ text ++ tail, stop, empty + 1 + used)
        | none => some (joint ++ text, piece.stop, empty + 1)
    else .ok none

/-- A plain scalar that begins with the content `cs` at `start`. -/
def blockPlain (s : String) (start : Nat) (cs : List Char) (parentIndent : Nat) (rest : List Line) :
    Except TornCharacter (Taken Scalar) := do
  let first := Span.withLength start (plainLength cs)
  match ← foldPlain s parentIndent 0 rest with
  | none => return ⟨← plainScalar s first, 0, []⟩
  | some (tail, stop, used) =>
    let head ← tokenText s first
    let span : Span := ⟨start, stop⟩
    return ⟨⟨.text (head ++ tail), .plain, span, ← tokenText s span⟩, used, []⟩

/-- What happens to the line breaks at the end of a block scalar. -/
inductive Chomping where
  /-- One is kept, if there is any text. -/
  | clip
  | strip
  | keep
deriving DecidableEq, Repr, Inhabited

def Chomping.ofHeader (header : String) : Chomping :=
  if header.contains '-' then .strip else if header.contains '+' then .keep else .clip

/-- The lines of a block scalar's text. -/
structure BlockText where
  /-- The pieces of text, an empty one for each empty line between two lines of text. -/
  pieces : List String
  /-- The number of empty lines at the end. -/
  trailing : Nat
  /-- Where the last line of text ends. -/
  stop : Nat
  used : Nat
deriving Repr, Inhabited

/-- Takes the lines of a block scalar's text: empty lines, and lines deeper than `parentIndent` that are not
to the left of the first one, whose column is `indent`. -/
def blockText (s : String) (parentIndent : Nat) (indent : Option Nat) (empty stop : Nat) :
    List Line → Except TornCharacter BlockText
  | [] => .ok ⟨[], empty, stop, 0⟩
  | l :: ls =>
    if l.isEmpty then do
      let more ← blockText s parentIndent indent (empty + 1) stop ls
      return { more with used := more.used + 1 }
    else
      let column := indent.getD l.indent
      if l.indent ≤ parentIndent || l.indent < column then .ok ⟨[], empty, stop, 0⟩
      else do
        let piece ← tokenText s ⟨l.start + column, l.breakStart⟩
        let more ← blockText s parentIndent (some column) 0 l.breakStart ls
        return { more with
          pieces := List.replicate empty "" ++ piece :: more.pieces, used := more.used + 1 }

/-- The pieces of a literal block, each with its line feed. -/
def joinLiteral (pieces : List String) : List Char := pieces.flatMap fun p => p.toList ++ ['\n']

/-- The pieces of a folded block: a space between two texts, a line feed for each empty line. -/
def joinFolded (afterText : Bool) : List String → List Char
  | [] => []
  | p :: ps =>
    if p.isEmpty then '\n' :: joinFolded false ps
    else (if afterText then [' '] else []) ++ p.toList ++ joinFolded true ps

/-- Settles the line feeds at the end of a block text, which `trailing` empty lines follow. -/
def Chomping.apply (c : Chomping) (trailing : Nat) (cs : List Char) : List Char :=
  let stripped := (cs.reverse.dropWhile (· == '\n')).reverse
  match c with
  | .strip => stripped
  | .clip => if stripped.isEmpty then [] else stripped ++ ['\n']
  | .keep => cs ++ List.replicate trailing '\n'

/-- A block scalar whose header is the content `cs` at `start`. -/
def blockScalar (s : String) (start : Nat) (cs : List Char) (parentIndent : Nat) (rest : List Line) :
    Except TornCharacter (Taken Scalar) := do
  let header := Span.withLength start (plainLength cs)
  let headerText ← tokenText s header
  let isFolded := cs.head? = some '>'
  let block ← blockText s parentIndent none 0 header.stop rest
  let joined :=
    if isFolded then
      joinFolded false block.pieces ++ (if block.pieces.isEmpty then [] else ['\n'])
    else joinLiteral block.pieces
  let value := (Chomping.ofHeader headerText).apply block.trailing joined
  let span : Span := ⟨start, block.stop⟩
  return ⟨⟨.text (String.ofList value), if isFolded then .folded else .literal, span,
    ← tokenText s span⟩, block.used, []⟩

/-- How far a flow collection under `parentIndent` may reach: over deeper lines, and over one line that begins
with a closing bracket; `stop` is where the current line ends. -/
def flowRegionEnd (parentIndent stop : Nat) : List Line → Nat
  | [] => stop
  | l :: ls =>
    if l.isBlank || parentIndent < l.indent then flowRegionEnd parentIndent l.breakStart ls
    else if l.content.head?.any fun c => c == ']' || c == '\x7d' then l.breakStart
    else stop

/-- A flow collection that begins with the content `cs` at `start`. -/
def blockFlow (s : String) (start : Nat) (cs : List Char) (parentIndent : Nat) (rest : List Line) :
    Except TornCharacter (Taken Tree) := do
  let lineEnd := start + cs.length
  let region := octetsAt s ⟨start, flowRegionEnd parentIndent lineEnd rest⟩
  let stop := ((extent? 0 none false none region).map (start + ·)).getD lineEnd
  let tree ← flowTree s ⟨start, none, octetsAt s ⟨start, stop⟩⟩
  let lines := rest.takeWhile fun l => l.start < stop
  let lineEnd := (lines.getLast?.map Line.contentEnd).getD lineEnd
  let after := start + tree.used
  return ⟨tree.value, lines.length,
    tree.errors ++ trailingErrors after (octetsAt s ⟨after, lineEnd⟩)⟩

/-- The value that the content `cs` at `start` begins, under a parent at column `parentIndent`. -/
def inlineValue (s : String) (start : Nat) (cs : List Char) (parentIndent : Nat) (rest : List Line) :
    Except TornCharacter (Taken Tree) :=
  match cs with
  | '"' :: _ | '\'' :: _ => do
    let scalar ← quotedScalar s start cs
    return ⟨.scalar scalar.value, 0,
      scalar.errors ++ trailingErrors (start + scalar.used) (cs.drop scalar.used)⟩
  | '[' :: _ | '\x7b' :: _ => blockFlow s start cs parentIndent rest
  | '|' :: _ | '>' :: _ => do
    let scalar ← blockScalar s start cs parentIndent rest
    return { scalar with value := .scalar scalar.value }
  | _ => do
    let scalar ← blockPlain s start cs parentIndent rest
    return { scalar with value := .scalar scalar.value }

/-! ## Collections -/

/-- The key of a pair. -/
def blockKey (s : String) (start : Nat) (cs : List Char) : Except TornCharacter (Taken Scalar) :=
  if cs.head?.any fun q => q == '"' || q == '\'' then quotedScalar s start cs
  else return ⟨← plainScalar s (.withLength start cs.length), cs.length, []⟩

/-- The first line with content and the lines before it, if it can hold the value of a key or a dash at
column `parentIndent`. Under a key, a sequence may stand at the same column. -/
def nestedLine? (parentIndent : Nat) (underKey : Bool) (rest : List Line) : Option (Nat × Line) :=
  let before := (rest.takeWhile Line.isBlank).length
  match rest[before]? with
  | none => none
  | some l =>
    if parentIndent < l.indent || (underKey && l.indent == parentIndent && l.isItem) then
      some (before, l)
    else none

/-- The weight of lines that are still to be read: it goes down when a line is taken, and when the
content of the first line moves to the right. -/
def weight : List Line → Nat
  | [] => 0
  | l :: ls => l.content.length + 1 + weight ls

theorem weight_cons (l : Line) (ls : List Line) :
    weight (l :: ls) = l.content.length + 1 + weight ls := rfl

theorem weight_drop_le (ls : List Line) (k : Nat) : weight (ls.drop k) ≤ weight ls := by
  induction ls generalizing k with
  | nil => simp
  | cons l ls ih =>
    cases k with
    | zero => simp
    | succ k => have := ih k; simp [weight_cons]; omega

theorem weight_nestedLine {p : Nat} {b : Bool} {rest : List Line} {i : Nat} {l : Line}
    (h : nestedLine? p b rest = some (i, l)) : weight (l :: rest.drop (i + 1)) ≤ weight rest := by
  simp only [nestedLine?] at h
  split at h
  · simp at h
  · next l' hl =>
    split at h
    · simp only [Option.some.injEq, Prod.mk.injEq] at h
      obtain ⟨rfl, rfl⟩ := h
      have : rest.drop (rest.takeWhile Line.isBlank).length
          = l' :: rest.drop ((rest.takeWhile Line.isBlank).length + 1) := by
        obtain ⟨hlt, heq⟩ := List.getElem?_eq_some_iff.1 hl
        rw [List.drop_eq_getElem_cons hlt, heq]
      rw [← this]
      exact weight_drop_le _ _
    · simp at h

/-- The error for a line that fits nowhere. -/
def lineError (fault : Fault) (l : Line) : Error := ⟨fault, l.contentSpan⟩

mutual

/-- The block whose first line is `l`, at column `l.indent`. -/
def block (s : String) (l : Line) (rest : List Line) : Except TornCharacter (Taken Tree) :=
  if l.isItem then do
    let items ← blockItems s l.indent (l :: rest)
    let stop := items.value.foldl (fun stop x => max stop (max (x.1 + 1) x.2.span.stop)) l.contentStart
    return ⟨.sequence false ⟨l.contentStart, stop⟩ (items.value.map (·.2)), items.used - 1,
      items.errors⟩
  else if (findKey? l.content).isSome then do
    let pairs ← blockPairs s l.indent [] (l :: rest)
    let stop := pairs.value.foldl (fun stop x => max stop (max x.1.span.stop x.2.span.stop))
      l.contentStart
    return ⟨.mapping false ⟨l.contentStart, stop⟩ pairs.value, pairs.used - 1, pairs.errors⟩
  else inlineValue s l.contentStart l.content (l.indent - 1) rest
termination_by 2 * weight (l :: rest) + 1

/-- The pairs of the mapping at column `indent`, after pairs with the keys `seen`. -/
def blockPairs (s : String) (indent : Nat) (seen : List String) (lines : List Line) :
    Except TornCharacter (Taken (List (Scalar × Tree))) :=
  match lines with
  | [] => .ok ⟨[], 0, []⟩
  | l :: rest =>
    if l.isBlank then do
      let more ← blockPairs s indent seen rest
      return { more with used := more.used + 1 }
    else if l.indent < indent then .ok ⟨[], 0, []⟩
    else if indent < l.indent || l.isItem then do
      let more ← blockPairs s indent seen rest
      return ⟨more.value, more.used + 1, lineError .badIndentation l :: more.errors⟩
    else
      match findKey? l.content with
      | none => do
        let more ← blockPairs s indent seen rest
        return ⟨more.value, more.used + 1, lineError .missingSeparator l :: more.errors⟩
      | some extent => do
        let key ← blockKey s l.contentStart (l.content.take extent.key)
        let valueAt := extent.colonEnd + blanks (l.content.drop extent.colonEnd)
        let content := l.content.drop valueAt
        let value ← (if isUsedUp content then
            blockNested s indent true (l.contentStart + extent.colonEnd) rest
          else inlineValue s (l.contentStart + valueAt) content indent rest)
        let more ← blockPairs s indent (key.value.key :: seen) (rest.drop value.used)
        return ⟨(key.value, value.value) :: more.value, 1 + value.used + more.used,
          key.errors ++ value.errors ++ duplicateErrors seen key.value ++ more.errors⟩
termination_by 2 * weight lines
decreasing_by
  all_goals simp only [weight_cons]
  · omega
  · omega
  · omega
  · have := l.length_content_pos (by assumption)
    omega
  · have := weight_drop_le rest value.used
    omega

/-- The items of the sequence at column `indent`, each with the offset of its dash. -/
def blockItems (s : String) (indent : Nat) (lines : List Line) :
    Except TornCharacter (Taken (List (Nat × Tree))) :=
  match lines with
  | [] => .ok ⟨[], 0, []⟩
  | l :: rest =>
    if l.isBlank then do
      let more ← blockItems s indent rest
      return { more with used := more.used + 1 }
    else if l.indent < indent then .ok ⟨[], 0, []⟩
    else if indent < l.indent then do
      let more ← blockItems s indent rest
      return ⟨more.value, more.used + 1, lineError .badIndentation l :: more.errors⟩
    else if l.isItem then do
      let dash := l.contentStart
      let column := 1 + blanks (l.content.drop 1)
      let item ← (if isUsedUp (l.content.drop column) then
          blockNested s indent false (dash + 1) rest
        else block s (l.advance column) rest)
      let more ← blockItems s indent (rest.drop item.used)
      return ⟨(dash, item.value) :: more.value, 1 + item.used + more.used,
        item.errors ++ more.errors⟩
    else .ok ⟨[], 0, []⟩
termination_by 2 * weight lines
decreasing_by
  all_goals simp only [weight_cons]
  · omega
  · omega
  · have := l.length_content_pos (by assumption)
    omega
  · have := l.length_content_pos (by assumption)
    simp [Line.advance]
    omega
  · have := weight_drop_le rest item.used
    omega

/-- The value on the lines after a key or a dash; without one, a missing scalar at `anchor`. -/
def blockNested (s : String) (parentIndent : Nat) (underKey : Bool) (anchor : Nat) (rest : List Line) :
    Except TornCharacter (Taken Tree) :=
  match h : nestedLine? parentIndent underKey rest with
  | none => .ok ⟨.scalar (.missing anchor), 0, []⟩
  | some (before, l) => do
    let tree ← block s l (rest.drop (before + 1))
    return { tree with used := before + 1 + tree.used }
termination_by 2 * weight rest + 2
decreasing_by
  have := weight_nestedLine h
  omega

end

/-- Every line with content that no node takes is misplaced. -/
def strayErrors (lines : List Line) : List Error :=
  (lines.filter fun l => !l.isBlank).map (lineError .badIndentation)

/-- Reads a block of data. -/
def Document.ofText (s : String) : Except TornCharacter Document :=
  match (linesOf s).dropWhile Line.isBlank with
  | [] => .ok ⟨none, tabErrors s⟩
  | l :: rest => do
    let tree ← block s l rest
    return ⟨some tree.value, tabErrors s ++ tree.errors ++ strayErrors (rest.drop tree.used)⟩

end Polyglot.Data
