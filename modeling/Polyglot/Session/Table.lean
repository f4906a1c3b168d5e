/-!
# Tables by document id

A table holds at most one value for each id; its ids come in ascending order. A table is known by what it
answers: `get?` after `put` and after `erase`.
-/

namespace Polyglot

/-- Values by id, in ascending order of the ids. -/
structure Table (α : Type) where
  entries : List (String × α)
deriving Repr, DecidableEq

namespace Table

variable {α : Type}

def empty : Table α := ⟨[]⟩

instance : Inhabited (Table α) := ⟨empty⟩

def get? (t : Table α) (id : String) : Option α := (t.entries.find? (·.1 == id)).map (·.2)

/-- Puts an entry in place of one with the same id, or in front of the first greater id. -/
def putEntry (id : String) (x : α) : List (String × α) → List (String × α)
  | [] => [(id, x)]
  | e :: rest =>
    if e.1 = id then (id, x) :: rest
    else if id < e.1 then (id, x) :: e :: rest
    else e :: putEntry id x rest

def put (t : Table α) (id : String) (x : α) : Table α := ⟨putEntry id x t.entries⟩

def erase (t : Table α) (id : String) : Table α := ⟨t.entries.filter fun e => e.1 != id⟩

def ids (t : Table α) : List String := t.entries.map (·.1)

@[simp] theorem get?_empty (id : String) : (empty : Table α).get? id = none := rfl

theorem find?_putEntry (id other : String) (x : α) (entries : List (String × α)) :
    (putEntry id x entries).find? (·.1 == other) =
      if id = other then some (id, x) else entries.find? (·.1 == other) := by
  induction entries with
  | nil => by_cases h : id = other <;> simp [putEntry, h]
  | cons e rest ih =>
    unfold putEntry
    split
    · next he => by_cases h : id = other <;> simp [he, h]
    · next he =>
      split
      · by_cases h : id = other <;> simp [h]
      · by_cases h : id = other
        · subst h
          simpa [he] using ih
        · simp [List.find?_cons, ih, h]

/-- What was put last for an id is what it holds. -/
theorem get?_put (t : Table α) (id other : String) (x : α) :
    (t.put id x).get? other = if id = other then some x else t.get? other := by
  unfold get? put
  rw [find?_putEntry]
  split <;> rfl

theorem find?_filter_ne (id other : String) (entries : List (String × α)) :
    (entries.filter fun e => e.1 != id).find? (·.1 == other) =
      if id = other then none else entries.find? (·.1 == other) := by
  induction entries with
  | nil => simp
  | cons e rest ih =>
    rw [List.filter_cons]
    split
    · next he =>
      simp only [bne_iff_ne, ne_eq] at he
      rw [List.find?_cons, List.find?_cons, ih]
      by_cases h : id = other
      · have : (e.1 == other) = false := by simp [← h, he]
        simp [h, this]
      · simp [h]
    · next he =>
      have he : e.1 = id := by simpa using he
      rw [ih, List.find?_cons]
      by_cases h : id = other
      · simp [h]
      · have : (e.1 == other) = false := by simp [he, h]
        simp [h, this]

/-- An erased id is gone, and no other. -/
theorem get?_erase (t : Table α) (id other : String) :
    (t.erase id).get? other = if id = other then none else t.get? other := by
  unfold get? erase
  rw [find?_filter_ne]
  split <;> rfl

end Table

end Polyglot
