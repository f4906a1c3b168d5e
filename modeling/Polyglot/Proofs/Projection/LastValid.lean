import Polyglot.Proofs.Projection.DataLiteral

/-!
# The last valid block

What a literal shows over the edits of one document. The memory is, after any calls, the body of the most
recent one whose block had no errors (`Written.isOf`), so a block with errors shows that body, however
many blocks with errors or texts without front matter lie in between (`write_lastValid`).
-/

namespace Polyglot

open Data

namespace DataLiteral

variable {memory next : Memory} {s collection : String} {body last : Body} {document : Document}
  {literal : Option DataLiteral} {calls : List (String × String)}

/-! ## Valid blocks -/

/-- The front matter of the text has no errors, and `body` is the literal of it. -/
def IsValid (s : String) (body : Body) : Prop :=
  ∃ document, Holds (FrontMatter.scan s) s document body ∧ document.isValid = true

theorem Holds.not_isValid (h : Holds (FrontMatter.scan s) s document body)
    (hinvalid : document.isValid = false) : ¬ IsValid s last := by
  rintro ⟨other, hother, hvalid⟩
  obtain ⟨rfl, -⟩ := h.unique hother
  rw [hinvalid] at hvalid
  cases hvalid

/-- Nothing is written for a document if and only if no front matter is found in it. -/
theorem not_holds_iff :
    (∀ block, (FrontMatter.scan s).blankFences s = some block →
      (FrontMatter.scan s).contentSpan? (Text.size block) = none) ↔
    FrontMatter.scan s = .absent := by
  constructor
  · intro h
    by_contra hpresent
    obtain ⟨block, content, hblock, hcontent⟩ := FrontMatter.exists_content hpresent
    rw [h block hblock] at hcontent
    cases hcontent
  · intro h block hblock
    rw [h] at hblock
    cases hblock

theorem not_isValid_of_absent (h : FrontMatter.scan s = .absent) : ¬ IsValid s body := by
  rintro ⟨document, ⟨block, content, hblock, -, -, -⟩, -⟩
  rw [h] at hblock
  cases hblock

/-! ## Calls one after the other -/

/-- What is remembered after calls, each with a text and a collection. -/
inductive Written : List (String × String) → Memory → Prop
  | nil : Written [] none
  | write {calls : List (String × String)} {memory next : Memory} {s collection : String}
      {literal : Option DataLiteral} : Written calls memory →
      write memory s (FrontMatter.scan s) collection = .ok (literal, next) →
      Written (calls ++ [(s, collection)]) next

/-- No call had a valid block. -/
def NoneValid (calls : List (String × String)) : Prop :=
  ∀ call ∈ calls, ∀ body, ¬ IsValid call.1 body

/-- The most recent valid block among those of the calls has this body. -/
def IsLastValid (calls : List (String × String)) (body : Body) : Prop :=
  ∃ before call after, calls = before ++ call :: after ∧ IsValid call.1 body ∧ NoneValid after

theorem NoneValid.concat (h : NoneValid calls) (hs : ∀ body, ¬ IsValid s body) :
    NoneValid (calls ++ [(s, collection)]) := by
  intro call hcall
  rcases List.mem_append.1 hcall with hcall | hcall
  · exact h call hcall
  · obtain rfl := List.mem_singleton.1 hcall
    exact hs

theorem IsLastValid.concat (h : IsLastValid calls body) (hs : ∀ body, ¬ IsValid s body) :
    IsLastValid (calls ++ [(s, collection)]) body := by
  obtain ⟨before, call, after, rfl, hvalid, hafter⟩ := h
  refine ⟨before, call, after ++ [(s, collection)], ?_, hvalid, hafter.concat hs⟩
  rw [List.append_assoc, List.cons_append]

theorem IsValid.isLastValid (h : IsValid s body) : IsLastValid (calls ++ [(s, collection)]) body :=
  ⟨calls, (s, collection), [], rfl, h, fun _ hcall => absurd hcall List.not_mem_nil⟩

/-- What a memory has to be after calls. -/
def Memory.IsOf (calls : List (String × String)) : Memory → Prop
  | none => NoneValid calls
  | some last => IsLastValid calls last

/-- A call without a valid block leaves the memory right. -/
theorem Memory.IsOf.concat (h : memory.IsOf calls) (hs : ∀ body, ¬ IsValid s body) :
    memory.IsOf (calls ++ [(s, collection)]) := by
  cases memory with
  | none => exact NoneValid.concat h hs
  | some last => exact IsLastValid.concat h hs

/-- **Memory.** After any calls the body of the most recent valid block is remembered. -/
theorem Written.isOf (h : Written calls memory) : memory.IsOf calls := by
  induction h with
  | nil => exact fun _ hcall => absurd hcall List.not_mem_nil
  | write _ hwrite ih =>
    rcases write_eq_ok_iff.1 hwrite with ⟨-, rfl, hnone⟩ | ⟨_, _, _, _, hholds, hshows, -⟩
    · exact ih.concat fun body => not_isValid_of_absent (not_holds_iff.1 hnone)
    cases hshows with
    | valid hvalid => exact IsValid.isLastValid ⟨_, hholds, hvalid⟩
    | stale hinvalid _ => exact ih.concat fun _ => hholds.not_isValid hinvalid
    | alone hinvalid _ => exact ih.concat fun _ => hholds.not_isValid hinvalid

/-- **Fallback.** Whatever calls went before, a text without front matter has no literal, and any other one
has one with the errors of its own block. A valid block shows itself. One with errors shows the most recent
valid block, checked against the collection of this call, and itself only if no call before was valid. -/
theorem write_lastValid (h : Written calls memory)
    (hwrite : write memory s (FrontMatter.scan s) collection = .ok (literal, next)) :
    (literal = none ↔ FrontMatter.scan s = .absent) ∧
    ∀ p ∈ literal, ∃ document body, Holds (FrontMatter.scan s) s document body ∧
      p.errors = document.errors ∧
      ∃ shown : Body, p.text = shown.text ++ satisfies collection ∧ p.mappings = shown.mappings ∧
        ((document.isValid = true ∧ shown = body ∧ p.stale = false) ∨
         (document.isValid = false ∧ IsLastValid calls shown ∧ p.stale = true) ∨
         (document.isValid = false ∧ NoneValid calls ∧ shown = body ∧ p.stale = false)) := by
  have hmemory := h.isOf
  rcases write_eq_ok_iff.1 hwrite with
    ⟨rfl, -, hnone⟩ | ⟨document, body, shown, stale, hholds, hshows, rfl⟩
  · exact ⟨iff_of_true rfl (not_holds_iff.1 hnone), fun _ hp => absurd hp (Option.not_mem_none _)⟩
  constructor
  · refine iff_of_false (Option.some_ne_none _) fun habsent => ?_
    obtain ⟨block, content, hblock, hcontent, -⟩ := hholds
    rw [not_holds_iff.2 habsent block hblock] at hcontent
    cases hcontent
  · intro p hp
    obtain rfl := Option.some.inj hp
    refine ⟨document, body, hholds, rfl, shown, rfl, rfl, ?_⟩
    cases hshows with
    | valid hvalid => exact .inl ⟨hvalid, rfl, rfl⟩
    | stale hvalid hlast =>
      rw [hlast] at hmemory
      exact .inr (.inl ⟨hvalid, hmemory, rfl⟩)
    | alone hvalid hlast =>
      rw [hlast] at hmemory
      exact .inr (.inr ⟨hvalid, hmemory, rfl, rfl⟩)

/-- A valid block, one with an error, and a text without front matter. -/
def editedCalls : List (String × String) :=
  [("---\na: 1\n---\n", "blog"), ("---\na: [\n---\n", "blog"), ("x", "news")]

/-- What is written for the first of them. -/
def editedBody : Body where
  text := preamble ++ "\x7b\n\"a\": 1,\n\x7d\n"
  mappings := [⟨⟨4, 5⟩, ⟨60, 63⟩, dataCapabilities⟩, ⟨⟨7, 8⟩, ⟨65, 66⟩, dataCapabilities⟩]

/-- What is written after them for another block with an error, in another collection. -/
def editedLiteral : DataLiteral where
  text := editedBody.text ++ satisfies "docs"
  mappings := editedBody.mappings
  errors := [⟨.unterminatedString, ⟨7, 9⟩⟩]
  stale := true

theorem write_lastValid_edited :
    Written editedCalls (some editedBody) ∧
    write (some editedBody) "---\nb: 'x\n---\n" (FrontMatter.scan "---\nb: 'x\n---\n") "docs" =
      .ok (some editedLiteral, some editedBody) ∧
    (some editedLiteral = none ↔ FrontMatter.scan "---\nb: 'x\n---\n" = .absent) ∧
    ∀ p ∈ some editedLiteral, ∃ document body,
      Holds (FrontMatter.scan "---\nb: 'x\n---\n") "---\nb: 'x\n---\n" document body ∧
      p.errors = document.errors ∧
      ∃ shown : Body, p.text = shown.text ++ satisfies "docs" ∧ p.mappings = shown.mappings ∧
        ((document.isValid = true ∧ shown = body ∧ p.stale = false) ∨
         (document.isValid = false ∧ IsLastValid editedCalls shown ∧ p.stale = true) ∨
         (document.isValid = false ∧ NoneValid editedCalls ∧ shown = body ∧ p.stale = false)) := by
  have hvalid : write none "---\na: 1\n---\n" (FrontMatter.scan "---\na: 1\n---\n") "blog" =
      .ok (some ⟨editedBody.text ++ satisfies "blog", editedBody.mappings, [], false⟩,
        some editedBody) := by decide +kernel
  have herror : write (some editedBody) "---\na: [\n---\n" (FrontMatter.scan "---\na: [\n---\n")
      "blog" = .ok (some ⟨editedBody.text ++ satisfies "blog", editedBody.mappings,
        [⟨.unterminatedFlow, ⟨7, 8⟩⟩], true⟩, some editedBody) := by decide +kernel
  have hmissing : write (some editedBody) "x" (FrontMatter.scan "x") "news" =
      .ok (none, some editedBody) := by decide +kernel
  have h : Written editedCalls (some editedBody) :=
    ((Written.nil.write hvalid).write herror).write hmissing
  have hwrite : write (some editedBody) "---\nb: 'x\n---\n" (FrontMatter.scan "---\nb: 'x\n---\n")
      "docs" = .ok (some editedLiteral, some editedBody) := by decide +kernel
  exact ⟨h, hwrite, write_lastValid h hwrite⟩

end DataLiteral

end Polyglot
