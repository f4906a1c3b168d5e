import Polyglot.Session.Table
import Polyglot.Session.Snapshot

/-!
# Document stores

A store holds the latest snapshot of each open document. A document is opened, updated with ever newer
versions, closed, and may then be opened again at any version. What was never opened and what was closed are
told apart in errors only.
-/

namespace Polyglot

/-- What a store knows of an id that was opened at some time. -/
inductive DocumentState where
  | opened (snapshot : Snapshot)
  | closed
deriving DecidableEq, Repr, Inhabited

inductive StoreError where
  | notOpen (id : String)
  | closed (id : String)
  | alreadyOpen (id : String)
  | staleVersion (id : String) (current received : Int)
deriving DecidableEq, Repr, Inhabited

namespace StoreError

/-- An id between backticks. -/
def quoted (id : String) : String := "\x60" ++ id ++ "\x60"

def message : StoreError → String
  | notOpen id => "document " ++ quoted id ++ " is not open"
  | closed id => "document " ++ quoted id ++ " was closed"
  | alreadyOpen id => "document " ++ quoted id ++ " is already open"
  | staleVersion id current received =>
    "stale update for " ++ quoted id ++ ": version " ++ toString received ++ " is not newer than " ++
      toString current

end StoreError

structure Store where
  states : Table DocumentState
  /-- The stamp of the next snapshot. -/
  nextStamp : Nat
deriving DecidableEq, Repr, Inhabited

namespace Store

def empty : Store := ⟨.empty, 0⟩

/-- The snapshot of an open document. -/
def get? (s : Store) (id : String) : Option Snapshot :=
  match s.states.get? id with
  | some (.opened snapshot) => some snapshot
  | _ => none

def isOpen (s : Store) (id : String) : Bool := (s.get? id).isSome

/-- Version `version` is the latest one of an open document. -/
def isCurrent (s : Store) (id : String) (version : Int) : Bool :=
  (s.get? id).any (·.version == version)

/-- The snapshot is the one that the store holds for a document. -/
def isLatest (s : Store) (id : String) (snapshot : Snapshot) : Bool :=
  (s.get? id).any fun current =>
    current.version == snapshot.version && current.stamp == snapshot.stamp

/-- Every open document, in ascending order. -/
def ids (s : Store) : List String := s.states.ids.filter s.isOpen

def size (s : Store) : Nat := s.ids.length

/-- Stores a new snapshot. -/
def publish (s : Store) (id text : String) (version : Int) : Store × Snapshot :=
  let snapshot : Snapshot := ⟨text, version, s.nextStamp⟩
  (⟨s.states.put id (.opened snapshot), s.nextStamp + 1⟩, snapshot)

/-- Opens a document that is not open. -/
def openDocument (s : Store) (id text : String) (version : Int) : Except StoreError (Store × Snapshot) :=
  if s.isOpen id then .error (.alreadyOpen id) else .ok (s.publish id text version)

/-- The snapshot that an update to a version applies to: that of an open document, at an older version. -/
def current (s : Store) (id : String) (version : Int) : Except StoreError Snapshot :=
  match s.states.get? id with
  | none => .error (.notOpen id)
  | some .closed => .error (.closed id)
  | some (.opened snapshot) =>
    if version ≤ snapshot.version then .error (.staleVersion id snapshot.version version)
    else .ok snapshot

/-- Replaces the text of an open document by a newer version. -/
def update (s : Store) (id text : String) (version : Int) : Except StoreError (Store × Snapshot) :=
  (s.current id version).map fun _ => s.publish id text version

/-- Applies changes to an open document. -/
def edit (s : Store) (id : String) (changes : List Change) (version : Int) :
    Except StoreError (Store × Snapshot) :=
  (s.current id version).map fun snapshot => s.publish id (snapshot.edit changes) version

/-- Closes an open document. -/
def close (s : Store) (id : String) : Except StoreError Store :=
  match s.states.get? id with
  | none => .error (.notOpen id)
  | some .closed => .error (.closed id)
  | some (.opened _) => .ok { s with states := s.states.put id .closed }

/-! ## What a store holds afterwards -/

theorem get?_publish (s : Store) (id other text : String) (version : Int) :
    (s.publish id text version).1.get? other =
      if id = other then some (s.publish id text version).2 else s.get? other := by
  simp only [publish, get?, Table.get?_put]
  by_cases h : id = other <;> simp [h]

theorem get?_close {s t : Store} {id : String} (h : s.close id = .ok t) (other : String) :
    t.get? other = if id = other then none else s.get? other := by
  unfold close at h
  split at h <;> try contradiction
  injection h with h
  subst h
  simp only [get?, Table.get?_put]
  by_cases h : id = other <;> simp [h]

end Store

end Polyglot
