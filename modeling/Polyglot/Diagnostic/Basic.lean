import Polyglot.Text.Span

/-!
# Diagnostics

What is wrong with a document, as a span of its source. Line numbers enter only where a diagnostic leaves
the library.
-/

namespace Polyglot

inductive Severity where
  | error
  | warning
  | information
  | hint
deriving DecidableEq, Repr, Inhabited

/-- Which stage found it. -/
inductive Origin where
  | markup
  /-- The template compiler, or the placeholder for its output. -/
  | compiler
  | frontMatter
  /-- The check of front matter against its schema. -/
  | schema
deriving DecidableEq, Repr, Inhabited

/-- The name that a diagnostic is shown under. -/
def Origin.label : Origin → String
  | .markup => "lumen/markup"
  | .compiler => "lumen/compiler"
  | .frontMatter => "lumen/frontmatter"
  | .schema => "lumen/schema"

structure Diagnostic where
  span : Span
  severity : Severity
  code : Option UInt32
  message : String
  origin : Origin
deriving DecidableEq, Repr, Inhabited

def Diagnostic.isError (d : Diagnostic) : Bool := d.severity == .error

end Polyglot
