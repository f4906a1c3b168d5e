import Polyglot.Json.Value

/-!
# Records in JSON

Readers for values of a known shape. A record is an object whose unknown members are ignored, or an array of
all its values in order. Only what is read counts as nested: `room` says how many arrays and objects may still
be opened, one in the other.
-/

namespace Polyglot

/-- The member of this name: none at all if it occurs twice. -/
def uniqueMember? (members : List (String × JsonValue)) (name : String) :
    Option (Option JsonValue) :=
  match members.filter (·.1 == name) with
  | [] => some none
  | [(_, v)] => some (some v)
  | _ => none

/-- A field that may be missing or null. -/
def optional? (read : JsonValue → Option α) : Option JsonValue → Option (Option α)
  | none | some .null => some none
  | some v => (read v).map some

/-- A member that may be missing or null. -/
def optionalMember? (members : List (String × JsonValue)) (name : String)
    (read : JsonValue → Option α) : Option (Option α) :=
  (uniqueMember? members name).bind (optional? read)

namespace JsonValue

/-- A value of any shape. -/
def any? (room : Nat) (v : JsonValue) : Option JsonValue :=
  if v.isSound && v.depth ≤ room then some v else none

/-- The items of an array, each read with the room inside it. -/
def list? (read : Nat → JsonValue → Option α) : Nat → JsonValue → Option (List α)
  | room + 1, array items => items.mapM (read room)
  | _, _ => none

/-- A text, in a place with any room. -/
def text? (_room : Nat) (v : JsonValue) : Option String := v.string?

/-- A value or null, in a place with some room. -/
def nullable? (read : Nat → JsonValue → Option α) (room : Nat) (v : JsonValue) : Option (Option α) :=
  optional? (read room) (some v)

/-- The fields of a record in the order of their names, read with the room inside it. -/
def record? (names : List String) (read : Nat → List (Option JsonValue) → Option α) :
    Nat → JsonValue → Option α
  | 0, _ => none
  | room + 1, array items =>
    if items.length = names.length then read room (items.map some) else none
  | room + 1, v => do
    let members ← v.members?
    read room (← names.mapM (uniqueMember? members))

end JsonValue

end Polyglot
