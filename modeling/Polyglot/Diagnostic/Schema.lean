import Polyglot.FrontMatter
import Polyglot.Diagnostic.Basic
import Polyglot.Projection.Code

/-!
# Diagnostics of a schema

A type checker tests the literal of the front matter against a schema. Its complaints are carried back to the
document: a missing property belongs to the whole block, anything else to the key or value it points at;
what points at scaffolding is dropped.
-/

namespace Polyglot

namespace Diagnostic

/-- The checker's codes for missing properties. -/
def missingPropertyCodes : List UInt32 := [2739, 2740, 2741]

/-- `part` occurs in the list. -/
def occursIn (part : List Char) : List Char → Bool
  | [] => part.isEmpty
  | c :: cs => part.isPrefixOf (c :: cs) || occursIn part cs

/-- The checker says that a property is missing, by its code or by its words. -/
def isMissingProperty (d : Diagnostic) : Bool :=
  let message := d.message.toList
  d.code.any missingPropertyCodes.contains ||
    "Missing property".toList.isPrefixOf message ||
    ("Property ".toList.isPrefixOf message && occursIn " is missing".toList message)

def missingFrontMatterMessage : String := "Frontmatter is required for this file."

/-- The error for a document that should have front matter. -/
def missingFrontMatter : Diagnostic :=
  ⟨.emptyAt 0, .error, none, missingFrontMatterMessage, .schema⟩

/-- The span of the source that a complaint about the literal belongs to. -/
def sourceSpan? (literal : Option Code) (block : Span) (d : Diagnostic) : Option Span :=
  if d.isMissingProperty then some block
  else literal.bind fun code => code.map.toSourceSpan? d.span .diagnostics

/-- Carries complaints about the literal back to a document of `size` bytes. Without front matter, any complaint
becomes the one that front matter is required. -/
def reshape (ds : List Diagnostic) (literal : Option Code) (f : FrontMatter) (size : Nat) :
    List Diagnostic :=
  match f.span? size with
  | none => if ds.isEmpty then [] else [missingFrontMatter]
  | some block =>
    ds.filterMap fun d =>
      (sourceSpan? literal block d).map fun span => { d with span, severity := .error, origin := .schema }

end Diagnostic

end Polyglot
