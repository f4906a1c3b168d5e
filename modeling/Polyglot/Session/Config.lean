import Polyglot.Json.Reader
import Polyglot.Json.Record
import Polyglot.Markup.Node
import Polyglot.Projection.Tree

/-!
# Configuration

A project may have a configuration file in JSON. Every field may be left out, and a file that cannot be read
as a configuration counts as none at all. A group of fields may also be written as an array of its values in
order, later ones left out.
-/

namespace Polyglot

structure Config where
  /-- Paths of content documents with the names of their collections. -/
  entries : List (String × String) := []
  /-- The extensions of content documents. -/
  contentExtensions : List String := ["md", "mdx", "mdoc"]
  /-- How long a compilation may take, in milliseconds. -/
  timeout : Nat := 30000
deriving DecidableEq, Repr, Inhabited

namespace Config

/-- No configuration. -/
def standard : Config := {}

/-! ## Reading -/

/-- The value of a field that is given by name or by its index in an array. -/
def field? (names : List String) (v : JsonValue) (index : Nat) : Option (Option JsonValue) :=
  match v with
  | .array items => if names.length < items.length then none else some items[index]?
  | v => do
    let members ← v.members?
    names.forM fun name => (uniqueMember? members name).map fun _ => ()
    uniqueMember? members (names.getD index "")

/-- Reads a field, or takes the default if it is left out. -/
def fieldOr? (v : Option JsonValue) (default : α) (read : JsonValue → Option α) : Option α :=
  match v with
  | none => some default
  | some v => read v

/-- Adds an entry in place of an earlier one for the same path. -/
def putEntry (entries : List (String × String)) (entry : String × String) : List (String × String) :=
  if entries.any (·.1 == entry.1) then
    entries.map fun e => if e.1 == entry.1 then entry else e
  else entries ++ [entry]

/-- Paths with their collections; of two entries for a path the last one counts. -/
def entriesOf? (v : JsonValue) : Option (List (String × String)) := do
  let members ← v.members?
  let entries ← members.mapM fun (path, v) => v.string?.map fun collection => (path, collection)
  return entries.foldl putEntry []

/-- The configuration that a JSON value holds. -/
def ofJson? (v : JsonValue) : Option Config := do
  let field := field? ["collections", "contentExtensions", "compiler"] v
  let collections ← field 0
  let extensions ← field 1
  let compiler ← field 2
  let entries ← fieldOr? collections standard.entries fun v => do
    fieldOr? (← field? ["entries"] v 0) standard.entries entriesOf?
  let contentExtensions ← fieldOr? extensions standard.contentExtensions fun v => do
    (← v.items?).mapM (·.string?)
  let timeout ← fieldOr? compiler standard.timeout fun v => do
    fieldOr? (← field? ["timeoutMs"] v 0) standard.timeout (·.natBelow? 0x10000000000000000)
  return { entries, contentExtensions, timeout }

/-- The configuration in the text of a file, if there is one. -/
def ofText (text : Option String) : Config :=
  ((text.bind JsonValue.ofText?).bind ofJson?).getD standard

/-! ## Documents -/

/-- The part behind the last character that `p` holds of, if there is one. -/
def afterLast? (p : Char → Bool) (cs : List Char) : Option (List Char) :=
  if cs.any p then some (cs.reverse.takeWhile fun c => !p c).reverse else none

/-- The kind of a document, by the extension of its file name; ASCII case does not matter. -/
def kindOf (c : Config) (id : String) : DocumentKind :=
  let cs := id.toList
  let name := (afterLast? (fun x => x == '/' || x == '\\') cs).getD cs
  let isContent := (afterLast? (· == '.') name).any fun ext =>
    c.contentExtensions.any fun known => Markup.sameIgnoringCase known (String.ofList ext)
  if isContent then .content else .template

/-- A path names a document by its whole id, or by the part behind a slash. -/
def names (path id : String) : Bool :=
  path == id || ('/' :: path.toList).isSuffixOf id.toList

/-- The collection of a document. -/
def collectionOf? (c : Config) (id : String) : Option String :=
  (c.entries.find? fun e => names e.1 id).map (·.2)

end Config

end Polyglot
