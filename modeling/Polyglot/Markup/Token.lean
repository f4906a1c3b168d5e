import Polyglot.Text.Slice
import Polyglot.Text.Blank
import Polyglot.Markup.Error

/-!
# Markup tokens

A machine reads the text octet by octet and reports tokens with their byte offsets. Braces open an
expression, in text and as an attribute value; it ends at the brace that balances the first one, braces
inside quotes left out. The content of a raw text element is opaque up to its end tag. Every octet that
a state looks for is ASCII, so offsets fall between characters.
-/

namespace Polyglot.Markup

/-- How an attribute value is written. -/
inductive ValueKind where
  | double
  | single
  | unquoted
  /-- In braces. -/
  | expression
deriving DecidableEq, Repr, Inhabited

/-- A piece of markup. A start tag is reported as its name, its attributes and its end. -/
inductive Token where
  | text (span : Span)
  /-- An expression in text position, braces included. -/
  | expression (span : Span)
  | openName (name : Span)
  /-- The `>` of a start tag. -/
  | openEnd (at_ : Nat)
  /-- The `>` of a tag that closes itself. -/
  | selfClose (at_ : Nat)
  /-- An end tag from the `<` at `start` to the `>` at `stop`, or to the end of the text. -/
  | closeTag (start : Nat) (name : Span) (stop : Nat)
  | attributeName (name : Span)
  /-- A value without its quotes or braces. -/
  | attributeValue (kind : ValueKind) (value : Span)
  /-- An attribute that is nothing but an expression, braces included. -/
  | shorthand (span : Span)
  | comment (span : Span)
  | doctype (span : Span)
  | error (e : Error)
  | finish
deriving DecidableEq, Repr, Inhabited

/-- Elements whose content is not read as markup. -/
def rawTextElements : List String := ["script", "style", "textarea", "title"]

/-- The octets of a name spell a raw text element; case counts. -/
def isRawTextName (name : List Char) : Bool := rawTextElements.any fun e => e.toList == name

/-- The octet ends a tag name or an attribute name. -/
def endsTagSection (c : Char) : Bool := c == '/' || c == '>' || Text.isAsciiBlank c

/-! ## Expressions -/

/-- Progress through an expression: open braces, the quote being read, and whether a backslash came
right before. -/
structure Braces where
  depth : Nat
  quote : Option Char
  escaped : Bool
deriving DecidableEq, Repr, Inhabited

namespace Braces

/-- After the opening brace. -/
def start : Braces := ⟨1, none, false⟩

/-- Takes one octet; none when it closes the outermost brace. -/
def step? (b : Braces) (c : Char) : Option Braces :=
  match b.quote with
  | some q =>
    if b.escaped then some { b with escaped := false }
    else if c = '\\' then some { b with escaped := true }
    else if c = q then some { b with quote := none }
    else some b
  | none =>
    if c = '"' ∨ c = '\'' ∨ c = '\x60' then some { b with quote := some c }
    else if c = '\x7b' then some { b with depth := b.depth + 1 }
    else if c = '\x7d' then
      if b.depth ≤ 1 then none else some { b with depth := b.depth - 1 }
    else some b

end Braces

/-! ## The machine -/

/-- What the machine is reading, and the offsets it has to remember for it. -/
inductive Mode where
  | text (start : Nat)
  | textExpression (start : Nat) (braces : Braces)
  /-- After the `<` at `lt`. -/
  | beforeName (lt : Nat)
  /-- In the name of a start tag; its octets, last first. -/
  | openName (start : Nat) (spelled : List Char)
  /-- After a `/` in the start tag of an element with this name. -/
  | selfClosing (name : List Char)
  | beforeCloseName (lt : Nat)
  | closeName (lt start : Nat)
  | afterCloseName (lt : Nat) (name : Span)
  | beforeAttribute (name : List Char)
  | attributeName (name : List Char) (start : Nat)
  | afterAttributeName (name : List Char)
  | beforeValue (name : List Char)
  | doubleQuoted (name : List Char) (start : Nat)
  | singleQuoted (name : List Char) (start : Nat)
  | unquoted (name : List Char) (start : Nat)
  | attributeExpression (name : List Char) (start : Nat) (isShorthand : Bool) (braces : Braces)
  | beforeDeclaration (lt : Nat)
  | declaration (lt : Nat)
  | beforeComment (lt : Nat)
  | comment (lt : Nat)
  /-- In the content of the raw text element with this name. -/
  | rawText (name : List Char) (start : Nat)
deriving DecidableEq, Repr, Inhabited

/-- The text from `start` up to `i`, unless it is empty. -/
def pendingText (start i : Nat) : List Token := if start < i then [.text ⟨start, i⟩] else []

/-- The octets after a `<` begin the end tag of `name`, whatever its case. -/
def beginsEndTag (name rest : List Char) : Bool :=
  match rest with
  | '/' :: rest =>
    (rest.take name.length).map Char.toLower == name.map Char.toLower &&
      (rest.drop name.length).head?.all endsTagSection
  | _ => false

namespace Mode

/-- In text that began at `start`. -/
def stepText (start i : Nat) (c : Char) : Mode × List Token :=
  if c = '<' then (.beforeName i, pendingText start i)
  else if c = '\x7b' then (.textExpression i .start, pendingText start i)
  else (.text start, [])

/-- After the `>` at `i` of a start tag. -/
def afterStartTag (name : List Char) (i : Nat) : Mode :=
  if isRawTextName name then .rawText name (i + 1) else .text (i + 1)

/-- Where an attribute may begin. -/
def stepAttribute (name : List Char) (i : Nat) (c : Char) : Mode × List Token :=
  if c = '>' then (afterStartTag name i, [.openEnd i])
  else if c = '/' then (.selfClosing name, [])
  else if c = '\x7b' then (.attributeExpression name i true .start, [])
  else if Text.isAsciiBlank c then (.beforeAttribute name, [])
  else (.attributeName name i, [])

def stepAfterAttributeName (name : List Char) (i : Nat) (c : Char) : Mode × List Token :=
  if c = '=' then (.beforeValue name, [])
  else if Text.isAsciiBlank c then (.afterAttributeName name, [])
  else stepAttribute name i c

def stepDeclaration (lt i : Nat) (c : Char) : Mode × List Token :=
  if c = '>' then (.text (i + 1), [.doctype ⟨lt, i + 1⟩]) else (.declaration lt, [])

/-- Puts tokens in front of those of a step. -/
def emitting (tokens : List Token) (r : Mode × List Token) : Mode × List Token :=
  (r.1, tokens ++ r.2)

/-- Takes the octet `c` at offset `i`, with `rest` behind it. -/
def step (mode : Mode) (i : Nat) (c : Char) (rest : List Char) : Mode × List Token :=
  match mode with
  | .text start => stepText start i c
  | .textExpression start braces =>
    match braces.step? c with
    | some braces => (.textExpression start braces, [])
    | none => (.text (i + 1), [.expression ⟨start, i + 1⟩])
  | .beforeName lt =>
    if c = '!' then (.beforeDeclaration lt, [])
    else if c.isAlpha then (.openName i [c], [])
    else if c = '>' then (afterStartTag [] i, [.openName ⟨i, i⟩, .openEnd i])
    else if c = '/' then (.beforeCloseName lt, [])
    else stepText lt i c
  | .openName start spelled =>
    if endsTagSection c then
      emitting [.openName ⟨start, i⟩] (stepAttribute spelled.reverse i c)
    else (.openName start (c :: spelled), [])
  | .selfClosing name =>
    if c = '>' then (.text (i + 1), [.selfClose i])
    else if Text.isAsciiBlank c then (.selfClosing name, [])
    else stepAttribute name i c
  | .beforeCloseName lt =>
    if Text.isAsciiBlank c then (.beforeCloseName lt, [])
    else if c = '>' then (.text (i + 1), [.closeTag lt ⟨i, i⟩ i])
    else (.closeName lt i, [])
  | .closeName lt start =>
    if c = '>' then (.text (i + 1), [.closeTag lt ⟨start, i⟩ i])
    else if Text.isAsciiBlank c then (.afterCloseName lt ⟨start, i⟩, [])
    else (.closeName lt start, [])
  | .afterCloseName lt name =>
    if c = '>' then (.text (i + 1), [.closeTag lt name i]) else (.afterCloseName lt name, [])
  | .beforeAttribute name => stepAttribute name i c
  | .attributeName name start =>
    if c = '=' || endsTagSection c then
      emitting [.attributeName ⟨start, i⟩] (stepAfterAttributeName name i c)
    else (.attributeName name start, [])
  | .afterAttributeName name => stepAfterAttributeName name i c
  | .beforeValue name =>
    if c = '"' then (.doubleQuoted name (i + 1), [])
    else if c = '\'' then (.singleQuoted name (i + 1), [])
    else if c = '\x7b' then (.attributeExpression name i false .start, [])
    else if c = '>' then (afterStartTag name i, [.openEnd i])
    else if Text.isAsciiBlank c then (.beforeValue name, [])
    else (.unquoted name i, [])
  | .doubleQuoted name start =>
    if c = '"' then (.beforeAttribute name, [.attributeValue .double ⟨start, i⟩])
    else (.doubleQuoted name start, [])
  | .singleQuoted name start =>
    if c = '\'' then (.beforeAttribute name, [.attributeValue .single ⟨start, i⟩])
    else (.singleQuoted name start, [])
  | .unquoted name start =>
    if Text.isAsciiBlank c || c = '>' then
      emitting [.attributeValue .unquoted ⟨start, i⟩] (stepAttribute name i c)
    else (.unquoted name start, [])
  | .attributeExpression name start isShorthand braces =>
    match braces.step? c with
    | some braces => (.attributeExpression name start isShorthand braces, [])
    | none =>
      (.beforeAttribute name,
        if isShorthand then [.shorthand ⟨start, i + 1⟩]
        else [.attributeValue .expression ⟨start + 1, i⟩])
  | .beforeDeclaration lt => if c = '-' then (.beforeComment lt, []) else stepDeclaration lt i c
  | .declaration lt => stepDeclaration lt i c
  | .beforeComment lt => if c = '-' then (.comment lt, []) else stepDeclaration lt i c
  | .comment lt => (.comment lt, [])
  | .rawText name start =>
    if c = '<' ∧ beginsEndTag name rest then (.beforeName i, pendingText start i)
    else (.rawText name start, [])

/-- What is reported when the text ends at offset `size`. -/
def atEnd (mode : Mode) (size : Nat) : List Token :=
  match mode with
  | .text start | .rawText _ start => pendingText start size
  | .beforeName lt => [.text ⟨lt, size⟩]
  | .textExpression start _ => [.error ⟨.endInExpression, size⟩, .expression ⟨start, size⟩]
  | .openName start _ => [.openName ⟨start, size⟩, .error ⟨.endInTag, size⟩]
  | .beforeCloseName lt => [.closeTag lt ⟨size, size⟩ size, .error ⟨.endInTag, size⟩]
  | .closeName lt start => [.closeTag lt ⟨start, size⟩ size, .error ⟨.endInTag, size⟩]
  | .afterCloseName lt name => [.closeTag lt name size, .error ⟨.endInTag, size⟩]
  | .doubleQuoted .. | .singleQuoted .. => [.error ⟨.endInAttributeValue, size⟩]
  | .attributeExpression .. => [.error ⟨.endInExpression, size⟩]
  | .selfClosing _ | .beforeAttribute _ | .attributeName .. | .afterAttributeName _
  | .beforeValue _ | .unquoted .. => [.error ⟨.endInTag, size⟩]
  | .beforeComment lt | .comment lt => [.error ⟨.endInComment, size⟩, .comment ⟨lt, size⟩]
  | .beforeDeclaration lt | .declaration lt => [.error ⟨.endInTag, size⟩, .doctype ⟨lt, size⟩]

/-- Runs over the octets from offset `i` to the end of the text. A comment ends at the first `-->`,
whose three octets are taken at once. -/
def run : Mode → Nat → List Char → List Token
  | .comment lt, i, '-' :: '-' :: '>' :: rest =>
    .comment ⟨lt, i + 3⟩ :: run (.text (i + 3)) (i + 3) rest
  | mode, i, c :: rest =>
    let r := mode.step i c rest
    r.2 ++ run r.1 (i + 1) rest
  | mode, i, [] => mode.atEnd i ++ [.finish]

end Mode

/-- The tokens of `s` from offset `start` on, or from its end if it is shorter. -/
def tokensFrom (s : String) (start : Nat) : List Token :=
  let start := min start (Text.size s)
  Mode.run (.text start) start ((Text.octets s).drop start)

end Polyglot.Markup
