import Polyglot.Json.Reader
import Polyglot.Json.Record
import Polyglot.Map.Vlq.BuildId
import Polyglot.Map.Vlq.Reader

/-!
# Source maps in JSON

Version 3 of the source map format: an object with the mappings and the lists they refer to. Only a plain map
is of use here. Maps in sections and maps with the scopes of functions are refused, but not before every map
in them has been read.
-/

namespace Polyglot

namespace Vlq

/-! ## One map -/

/-- The parts of a map that its segments depend on. -/
structure Encoded where
  limits : Limits
  mappings : String
  rangeMappings : String
deriving DecidableEq, Repr, Inhabited

/-- The segments of a map. -/
def Encoded.decode (m : Encoded) : Except Fault (List Segment) :=
  segments m.limits 0 default (splitAt ';' (Text.octets m.rangeMappings))
    (splitAt ';' (Text.octets m.mappings))

/-- A list of texts, some of them null. -/
def nullableTexts? (room : Nat) (v : JsonValue) : Option (List (Option String)) :=
  v.list? (JsonValue.nullable? JsonValue.text?) room

/-- The map in the members of an object. Every field may be missing or null, and unknown ones are ignored. -/
def Encoded.ofMembers? (room : Nat) (members : List (String × JsonValue)) : Option Encoded := do
  let _ ← optionalMember? members "version" (·.natBelow? 0x100000000)
  let _ ← optionalMember? members "file" (·.any? room)
  let sources ← optionalMember? members "sources" (nullableTexts? room)
  let _ ← optionalMember? members "sourceRoot" (·.string?)
  let _ ← optionalMember? members "sourcesContent" (nullableTexts? room)
  let names ← optionalMember? members "names" (·.list? JsonValue.any? room)
  let ranges ← optionalMember? members "rangeMappings" (·.string?)
  let mappings ← optionalMember? members "mappings" (·.string?)
  let _ ← optionalMember? members "debug_id" fun v => v.string?.filter isBuildId
  let limits := ⟨(sources.getD []).length, (names.getD []).length⟩
  return ⟨limits, mappings.getD "", ranges.getD ""⟩

/-! ## Maps of bundles -/

/-- The names of the functions in a source, with mappings of their own. -/
def scopes? (room : Nat) (v : JsonValue) : Option Unit :=
  v.record? ["names", "mappings"] (fun room fields =>
    match fields with
    | [some names, some mappings] => do
      let _ ← names.list? JsonValue.text? room
      let _ ← mappings.string?
    | _ => none) room

/-- The fields that bundlers add. Answers whether the map has function scopes. -/
def bundleFields? (room : Nat) (members : List (String × JsonValue)) : Option Bool := do
  let word (_room : Nat) (v : JsonValue) : Option Nat := v.natBelow? 0x100000000
  let _ ← optionalMember? members "x_facebook_offsets" (·.list? (JsonValue.nullable? word) room)
  let _ ← optionalMember? members "x_metro_module_paths" (·.list? JsonValue.text? room)
  let scopes ← optionalMember? members "x_facebook_sources"
    (·.list? (JsonValue.nullable? fun room v => v.list? scopes? room) room)
  return scopes.isSome

/-- Where a section begins: a line and a column. -/
def sectionPlace? (room : Nat) (v : JsonValue) : Option Place :=
  v.record? ["line", "column"] (fun _ fields =>
    match fields with
    | [some line, some column] => do
      return ⟨← line.natBelow? 0x100000000, ← column.natBelow? 0x100000000⟩
    | _ => none) room

/-- A section: where it begins, and its map if that is given in place. -/
def sectionMap? (map? : Nat → JsonValue → Option α) (room : Nat) (v : JsonValue) : Option (Option α) :=
  v.record? ["offset", "url", "map"] (fun room fields =>
    match fields with
    | [some offset, url, map] => do
      let _ ← sectionPlace? room offset
      let _ ← optional? (·.string?) url
      optional? (map? room) map
    | _ => none) room

/-! ## All maps -/

/-- What the JSON of a source map holds. -/
inductive Envelope where
  | plain (m : Encoded)
  /-- A map in sections or with function scopes; `parts` are the maps in it, in order. -/
  | composite (parts : List Encoded)
deriving DecidableEq, Repr, Inhabited

namespace Envelope

/-- All maps, in order. -/
def parts : Envelope → List Encoded
  | plain m => [m]
  | composite parts => parts

/-- Reads a source map. `fuel` bounds how many maps are nested in sections of each other. -/
def ofJson? : (fuel room : Nat) → JsonValue → Option Envelope
  | fuel + 1, room + 1, v => do
    let members ← v.members?
    let m ← Encoded.ofMembers? room members
    let hasScopes ← bundleFields? room members
    let sections ← optionalMember? members "sections" (·.list? (sectionMap? (ofJson? fuel)) room)
    match sections with
    | some sections => return composite (sections.flatMap fun e => (e.map parts).getD [])
    | none => return if hasScopes then composite [m] else plain m
  | _, _, _ => none

/-- The segments of a plain map. The first fault in a part of any other map wins over its refusal. -/
def decode : Envelope → Except Fault (List Segment)
  | plain m => m.decode
  | composite parts => do
    parts.forM fun m => m.decode.map fun _ => ()
    throw .incompatible

end Envelope

/-- How many arrays and objects may be nested in each other. -/
def maxDepth : Nat := 127

/-- A first line that begins with a closing bracket or a quote guards a map against being run; it is left
out. -/
def withoutGuard (cs : List Char) : Except Fault (List Char) :=
  if cs.head?.any fun c => ")]\x7d'".toList.contains c then
    let line := cs.takeWhile (· != '\n')
    let rest := cs.dropWhile (· != '\n')
    let broken := (line.dropWhile (· != '\r')).tail
    if broken.isEmpty then .ok rest else .error .expectedNewline
  else .ok cs

/-- The segments of a map in its JSON text, in the order they are encoded in. -/
def decode (json : String) : Except Fault (List Segment) := do
  let cs ← withoutGuard json.toList
  match (JsonValue.ofText? (String.ofList cs)).bind (Envelope.ofJson? maxDepth maxDepth) with
  | none => throw .badJson
  | some envelope => envelope.decode

end Vlq

end Polyglot
