import Polyglot.Map.Repair
import Polyglot.Digest.Fingerprint
import Polyglot.Compiler.Basic
import Polyglot.Diagnostic.Basic
import Polyglot.Projection.Style
import Polyglot.Projection.Script
import Polyglot.Projection.DataLiteral

/-!
# Trees of codes

Each state of a document is projected into a tree of codes: a template into typed code, stylesheets and
scripts, a content document into its front matter as data and as a literal. A generator carries what makes the
next tree of the same document cheap: the last compilation and the last literal that was valid.
-/

namespace Polyglot

inductive DocumentKind where
  | template
  | content
deriving DecidableEq, Repr, Inhabited

/-- All that is derived from one state of a document. -/
structure ProjectionTree where
  sourceId : String
  version : Int
  kind : DocumentKind
  frontMatter : FrontMatter
  regions : List Markup.Region
  root : Code
  children : List Code
  diagnostics : List Diagnostic
  /-- The ids of the codes that are not as in the tree before, those that are gone included. -/
  changed : List String
deriving Repr, Inhabited, DecidableEq

namespace ProjectionTree

/-- All codes, the root first. -/
def codes (t : ProjectionTree) : List Code := t.root :: t.children

def find? (t : ProjectionTree) (id : String) : Option Code := t.codes.find? (·.id == id)

/-- The typed code. -/
def typed? (t : ProjectionTree) : Option Code := t.codes.find? (·.language == .typescriptReact)

def hasErrors (t : ProjectionTree) : Bool := t.diagnostics.any (·.isError)

/-- Both trees hold the same codes. -/
def sameCodes (t u : ProjectionTree) : Bool := t.codes == u.codes

end ProjectionTree

/-! ## The codes of a document -/

/-- A tree without its comparison to the one before. -/
structure Draft where
  root : Code
  children : List Code
  frontMatter : FrontMatter
  regions : List Markup.Region
  diagnostics : List Diagnostic
deriving Repr, Inhabited, DecidableEq

namespace Draft

/-- The document itself, mapped to itself. -/
def rootCode (id : String) (language : Language) (s : String) : Code :=
  .make id language s [.verbatim 0 0 (Text.size s) .all]

/-- The typed code of a template. Output whose segments are out of order gives empty code. -/
def typedCode (id s : String) (output : CompilerOutput) (markup : Markup.Document) :
    Except UnorderedSegments Code := do
  let mappings ← Repair.mappings s output.code output.segments output.columnUnit markup
  return .make (id ++ ".tsx") .typescriptReact output.code mappings

/-- The codes of a template with this compiler output. -/
def ofTemplate (id s : String) (output : CompilerOutput) : Draft :=
  let markup := Markup.Document.ofText s
  let regions := markup.regions (Text.size s)
  let (typed, diagnostics) : Code × List Diagnostic :=
    match typedCode id s output markup with
    | .ok code => (code, output.diagnostics)
    | .error _ =>
      (.make (id ++ ".tsx") .typescriptReact "" [],
        output.diagnostics ++ CompilerOutput.placeholder.diagnostics)
  { root := rootCode id .astro s
    children := typed :: (Style.blockCodes id s regions ++
      (Style.attributeCode? id s regions).toList ++ Script.codes id s regions)
    frontMatter := markup.frontMatter
    regions
    diagnostics }

/-- Everything but formatting. -/
def dataCapabilities : Capabilities := Capabilities.all.without .format

/-- The front matter as data, its fences blanked, mapped one to one. It is empty without front matter, so
that a schema still sees a document. -/
def dataCode (id s : String) (f : FrontMatter) (collection : String) : Code :=
  let block := (f.blankFences s).getD ""
  .make (id ++ ".yaml_frontmatter_" ++ collection ++ ".yaml") .yaml block
    (if block.isEmpty then [] else [.verbatim 0 0 (Text.size block) dataCapabilities])

/-- Errors in front matter are warnings: the literal goes on showing the last valid data. -/
def dataDiagnostic (e : Data.Error) : Diagnostic :=
  ⟨e.span, .warning, none, e.fault.message, .frontMatter⟩

/-- The id of the literal of a content document. -/
def literalId (id : String) : String := id ++ ".frontmatter-ts.ts"

/-- The codes of a content document in a collection, or in none. -/
def ofContent (id s : String) (collection : Option String) (memory : DataLiteral.Memory) :
    Except Data.TornCharacter (Draft × DataLiteral.Memory) := do
  let f := FrontMatter.scan s
  let size := Text.size s
  let regions : List Markup.Region :=
    ⟨.template, ⟨0, size⟩, none⟩ :: ((f.span? size).map fun r => ⟨.frontMatter, r, none⟩).toList
  let draft : Draft := ⟨rootCode id .markdown s, [], f, regions, []⟩
  match collection with
  | none => return (draft, memory)
  | some collection =>
    let (literal, memory) ← DataLiteral.write memory s f collection
    let codes := literal.map fun l => Code.make (literalId id) .typescript l.text l.mappings
    let errors := (literal.map (·.errors)).getD []
    return ({ draft with
      children := dataCode id s f collection :: codes.toList
      diagnostics := errors.map dataDiagnostic }, memory)

/-! ## Comparison with the tree before -/

/-- The ids of the codes that differ from the tree before: the root, then children that are new or different,
then children that are gone. -/
def changedIds (d : Draft) : Option ProjectionTree → List String
  | none => d.root.id :: d.children.map (·.id)
  | some previous =>
    (if previous.root = d.root then [] else [d.root.id]) ++
      ((d.children.filter fun c =>
          previous.children.find? (·.id == c.id) != some c).map (·.id)) ++
      ((previous.children.filter fun old => !d.children.any (·.id == old.id)).map (·.id))

end Draft

/-! ## Generators -/

/-- What is remembered between the trees of one document. -/
structure Generator where
  memory : DataLiteral.Memory := none
  /-- The digest of the text that was compiled last and its output, if the compiler did not fail. -/
  lastCompile : Option (UInt64 × CompilerOutput) := none
deriving Repr, Inhabited, DecidableEq

namespace Generator

/-- The output of the last compilation, if it was of this text. -/
def remembered? (g : Generator) (s : String) : Option CompilerOutput :=
  g.lastCompile.bind fun (digest, output) => if digest = Digest.ofText s then some output else none

/-- The next tree takes a call of the compiler. -/
def compiles (g : Generator) (kind : DocumentKind) (s : String) : Bool :=
  kind == .template && (g.remembered? s).isNone

/-- Compiles, unless the text is the one compiled last. A failure may pass, so only real output is
remembered. -/
def compile (g : Generator) (id s : String) (compiler : Compiler) : CompilerOutput × Generator :=
  match g.remembered? s with
  | some output => (output, g)
  | none =>
    let output := compiler.run s id
    let last := if output.isPlaceholder then none else some (Digest.ofText s, output)
    (output, { g with lastCompile := last })

/-- The draft of a document and what is remembered from then on. -/
def draft (g : Generator) (id s : String) (kind : DocumentKind) (collection : Option String)
    (compiler : Compiler) : Except Data.TornCharacter (Draft × Generator) :=
  match kind with
  | .template =>
    let (output, g) := g.compile id s compiler
    .ok (.ofTemplate id s output, g)
  | .content => do
    let (draft, memory) ← Draft.ofContent id s collection g.memory
    return (draft, { g with memory })

/-- The tree of one state of a document, compared with the tree before. -/
def generate (g : Generator) (id : String) (version : Int) (s : String) (kind : DocumentKind)
    (collection : Option String) (compiler : Compiler) (previous : Option ProjectionTree) :
    Except Data.TornCharacter (ProjectionTree × Generator) := do
  let (d, g) ← g.draft id s kind collection compiler
  return ({
    sourceId := id
    version
    kind
    frontMatter := d.frontMatter
    regions := d.regions
    root := d.root
    children := d.children
    diagnostics := d.diagnostics
    changed := d.changedIds previous }, g)

end Generator

end Polyglot
