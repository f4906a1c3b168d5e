/-!
# Markup errors

Reading markup never fails: what is wrong is recorded, with the offset where it shows.
-/

namespace Polyglot.Markup

/-- What is wrong with a piece of markup. -/
inductive Fault where
  | endInTag
  | endInComment
  | endInExpression
  | endInAttributeValue
  | strayEndTag
  | missingEndTag
  | unclosedFrontMatter
deriving DecidableEq, Repr, Inhabited

/-- The text shown for a fault. -/
def Fault.message : Fault → String
  | .endInTag => "Unexpected end of file inside a tag."
  | .endInComment => "Unexpected end of file inside a comment."
  | .endInExpression => "Unexpected end of file inside an expression."
  | .endInAttributeValue => "Unexpected end of file inside an attribute value."
  | .strayEndTag => "End tag has no matching start tag."
  | .missingEndTag => "Element is missing its end tag."
  | .unclosedFrontMatter => "Frontmatter is never closed."

/-- A fault at a byte offset. -/
structure Error where
  fault : Fault
  offset : Nat
deriving DecidableEq, Repr, Inhabited

end Polyglot.Markup
