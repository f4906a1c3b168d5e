import Polyglot.Proofs.Outcome
import Polyglot.Proofs.Projection.BlankLines
import Polyglot.Proofs.Projection.Pieces

/-!
# Positions of the literal

The mappings of a fresh literal are those of the keys and values of its data, in order, with an
anchor on a blank first or last line between the fences. The pieces of a tree are shown to be tokens
with scaffolding behind them (`Emits`); all else follows from that.
-/

namespace Polyglot

open Text

namespace Data

/-! ## Keys and values -/

/-- A key or a value of data. -/
inductive Leaf where
  | key (x : Scalar)
  | value (x : Scalar)

def Leaf.scalar : Leaf → Scalar
  | key x => x
  | value x => x

/-- How the literal writes a key or a value. -/
def Leaf.text : Leaf → String
  | key x => x.key
  | value x => x.literal

mutual

/-- The keys and the values that are not null, in order. -/
def Tree.leaves : Tree → List Leaf
  | .scalar x => if x.isNull then [] else [.value x]
  | .mapping _ _ pairs => pairLeaves pairs
  | .sequence _ _ items => itemLeaves items

def Tree.pairLeaves : List (Scalar × Tree) → List Leaf
  | [] => []
  | (key, value) :: rest => .key key :: value.leaves ++ pairLeaves rest

def Tree.itemLeaves : List Tree → List Leaf
  | [] => []
  | item :: rest => item.leaves ++ itemLeaves rest

end

def Document.leaves (d : Document) : List Leaf := d.root.elim [] Tree.leaves

end Data

/-- The start of a line, if it is blank. -/
def Text.blankStart (s : String) (line : Span) : Option ℕ :=
  if (line.slice? s).any isAllWhite then some line.start else none

/-- The starts of the first line between the fences and of the last one, if it is not the first,
each only if it is blank. -/
def FrontMatter.blankEnds (f : FrontMatter) (s : String) : List ℕ :=
  let lines := f.innerLines s
  (lines.head?.bind (blankStart s)).toList ++
    (if 1 < lines.length then (lines.getLast?.bind (blankStart s)).toList else [])

namespace DataLiteral

open Data Piece

variable {xs ys : List Leaf} {ps qs : List Piece}

/-! ## What is written for a tree -/

/-- The pieces are tokens for these keys and values, each with scaffolding behind it. -/
inductive Emits : List Leaf → List Piece → Prop
  | nil : Emits [] []
  | scaffold (t : String) {xs : List Leaf} {ps : List Piece} :
      Emits xs ps → Emits xs (.scaffold t :: ps)
  | leaf (x : Leaf) {t : String} {xs : List Leaf} {ps : List Piece} : 0 < size t → Emits xs ps →
      Emits (x :: xs) (.token x.scalar.span x.text :: .scaffold t :: ps)

theorem Emits.append (hp : Emits xs ps) (hq : Emits ys qs) : Emits (xs ++ ys) (ps ++ qs) := by
  induction hp with
  | nil => exact hq
  | scaffold t _ ih => exact ih.scaffold t
  | leaf x ht _ ih => exact ih.leaf x ht

theorem Emits.closed (hp : Emits xs ps) (t : String) : Emits xs (ps ++ [.scaffold t]) := by
  have h := hp.append (Emits.nil.scaffold t)
  rwa [List.append_nil] at h

theorem Emits.spaced (h : Emits xs ps) : Spaced ps := by
  induction h with
  | nil => exact .nil
  | scaffold t _ ih => exact ih.scaffold t
  | leaf x ht _ ih => exact ih.mapped _ ht

theorem Emits.tokens (h : Emits xs ps) :
    ps.filterMap token? = xs.map fun x => (x.scalar.span, x.text) := by
  induction h with
  | nil => rfl
  | scaffold t _ ih => exact ih
  | leaf x _ _ ih => exact congrArg ((x.scalar.span, x.text) :: ·) ih

theorem Emits.anchors (h : Emits xs ps) : ps.filterMap anchor? = [] := by
  induction h with
  | nil => rfl
  | scaffold t _ ih => exact ih
  | leaf x _ _ ih => exact ih

mutual

theorem memberPieces_emits (scalarEnd : String) (h : 0 < size scalarEnd) :
    ∀ t : Tree, Emits t.leaves (memberPieces scalarEnd t)
  | .scalar x => by
    rw [memberPieces, Tree.leaves, scalarPiece]
    split_ifs
    · exact (Emits.nil.scaffold _).scaffold _
    · exact Emits.nil.leaf (.value x) h
  | .mapping _ _ pairs => by
    rw [memberPieces, Tree.leaves]
    exact ((pairPieces_emits pairs).scaffold _).closed _
  | .sequence _ _ items => by
    rw [memberPieces, Tree.leaves]
    exact ((itemPieces_emits items).scaffold _).closed _

theorem pairPieces_emits : ∀ pairs : List (Scalar × Tree),
    Emits (Tree.pairLeaves pairs) (pairPieces pairs)
  | [] => by
    rw [pairPieces, Tree.pairLeaves]
    exact Emits.nil
  | (key, value) :: rest => by
    rw [pairPieces, Tree.pairLeaves]
    have hvalue := memberPieces_emits ",\n" (by decide) value
    exact (hvalue.append (pairPieces_emits rest)).leaf (.key key) (by decide)

theorem itemPieces_emits : ∀ items : List Tree,
    Emits (Tree.itemLeaves items) (itemPieces items)
  | [] => by
    rw [itemPieces, Tree.itemLeaves]
    exact Emits.nil
  | item :: rest => by
    rw [itemPieces, Tree.itemLeaves]
    have hitem := memberPieces_emits "," (by decide) item
    exact hitem.append (itemPieces_emits rest)

end

theorem rootPieces_emits (root : Option Tree) :
    Emits (root.elim [] Tree.leaves) (rootPieces root) := by
  rcases root with _ | (x | ⟨flow, span, pairs⟩ | ⟨flow, span, items⟩)
  · exact Emits.nil.scaffold _
  · rw [Option.elim_some, rootPieces, Tree.leaves, scalarPiece]
    split_ifs
    · exact Emits.nil.scaffold _
    · exact Emits.nil.leaf (.value x) (by decide)
  · rw [Option.elim_some, rootPieces, Tree.leaves]
    exact ((pairPieces_emits pairs).scaffold _).closed _
  · rw [Option.elim_some, rootPieces, Tree.leaves]
    exact ((itemPieces_emits items).scaffold _).closed _

/-! ## What is written for a block -/

theorem anchorPieces_spaced (line : Option (ℕ × Bool)) : Spaced (anchorPieces line) := by
  unfold anchorPieces
  split
  · exact Spaced.nil.mapped _ (by decide)
  · exact Spaced.nil

theorem anchorPieces_tokens (line : Option (ℕ × Bool)) :
    (anchorPieces line).filterMap token? = [] := by
  unfold anchorPieces
  split
  · rfl
  · rfl

theorem anchorPieces_anchors (s : String) (line : Option Span) :
    (anchorPieces (line.map (lineStart s))).filterMap anchor? =
      (line.bind (blankStart s)).toList := by
  rcases line with _ | line
  · rfl
  · rw [Option.map_some, Option.bind_some, lineStart, blankStart]
    rcases (line.slice? s).any isAllWhite with _ | _
    · rfl
    · rfl

theorem bodyPieces_spaced (lines : List (ℕ × Bool)) (root : Option Tree) :
    Spaced (bodyPieces lines root) := by
  rw [bodyPieces]
  refine (((anchorPieces_spaced _).scaffold _).append (rootPieces_emits root).spaced).append ?_
  split_ifs
  · exact anchorPieces_spaced _
  · exact Spaced.nil

theorem bodyPieces_tokens (lines : List (ℕ × Bool)) (root : Option Tree) :
    (bodyPieces lines root).filterMap token? =
      (root.elim [] Tree.leaves).map fun x => (x.scalar.span, x.text) := by
  have hlast : (if 1 < lines.length then anchorPieces lines.getLast? else []).filterMap token? =
      [] := by
    split_ifs
    · exact anchorPieces_tokens _
    · rfl
  rw [bodyPieces, List.filterMap_append, List.filterMap_append, hlast, List.append_nil,
    (rootPieces_emits root).tokens, List.filterMap_cons]
  show (anchorPieces _).filterMap token? ++ _ = _
  rw [anchorPieces_tokens, List.nil_append]

theorem bodyPieces_anchors (f : FrontMatter) (s : String) (root : Option Tree) :
    (bodyPieces ((f.innerLines s).map (lineStart s)) root).filterMap anchor? =
      f.blankEnds s := by
  have hlast : (if 1 < (f.innerLines s).length then
      anchorPieces ((f.innerLines s).getLast?.map (lineStart s)) else []).filterMap anchor? =
      if 1 < (f.innerLines s).length then
        ((f.innerLines s).getLast?.bind (blankStart s)).toList else [] := by
    split_ifs
    · exact anchorPieces_anchors s _
    · rfl
  rw [bodyPieces, List.length_map, List.getLast?_map, List.head?_map, List.filterMap_append,
    List.filterMap_append, hlast, (rootPieces_emits root).anchors, List.append_nil,
    List.filterMap_cons]
  show (anchorPieces _).filterMap anchor? ++ _ = _
  rw [anchorPieces_anchors]
  rfl

/-! ## Literals of a block -/

/-- The front matter `f` of the text `s` holds the data of `document`, and `body` is the literal of that
block alone. -/
def Holds (f : FrontMatter) (s : String) (document : Document) (body : Body) : Prop :=
  ∃ block content, f.blankFences s = some block ∧ f.contentSpan? (size block) = some content ∧
    Document.ofText block = .ok document ∧ body = .ofBlock block f content document.root

/-- What is shown for a block, whether it is the literal of an earlier one, and what is remembered from
then on. -/
inductive Shows (memory : Memory) (document : Document) (body : Body) : Body → Bool → Memory → Prop
  | valid : document.isValid = true → Shows memory document body body false (some body)
  | stale {last : Body} : document.isValid = false → memory = some last →
      Shows memory document body last true memory
  | alone : document.isValid = false → memory = none → Shows memory document body body false memory

variable {memory next : Memory} {s collection : String} {f : FrontMatter} {document other : Document}
  {body otherBody : Body} {literal : Option DataLiteral}

theorem Holds.unique (h : Holds f s document body) (hother : Holds f s other otherBody) :
    document = other ∧ body = otherBody := by
  obtain ⟨block, content, hblock, hcontent, hdocument, rfl⟩ := h
  obtain ⟨block', content', hblock', hcontent', hdocument', rfl⟩ := hother
  obtain rfl := Option.some.inj (hblock.symm.trans hblock')
  obtain rfl := Option.some.inj (hcontent.symm.trans hcontent')
  obtain rfl := Except.ok.inj (hdocument.symm.trans hdocument')
  exact ⟨rfl, rfl⟩

/-- **Writing.** Without a block nothing is written and the memory stays. Otherwise the body that is shown
for the block is written, with the check behind it and the errors of the block itself. -/
theorem write_eq_ok_iff : write memory s f collection = .ok (literal, next) ↔
    (literal = none ∧ next = memory ∧
      ∀ block, f.blankFences s = some block → f.contentSpan? (size block) = none) ∨
    ∃ document body shown stale, Holds f s document body ∧
      Shows memory document body shown stale next ∧
      literal = some ⟨shown.text ++ satisfies collection, shown.mappings, document.errors, stale⟩ := by
  constructor
  · intro h
    unfold write at h
    rcases hblock : f.blankFences s with _ | block
    · rw [hblock] at h
      cases h
      exact .inl ⟨rfl, rfl, fun _ hsome => nomatch hsome⟩
    rw [hblock] at h
    rcases hcontent : f.contentSpan? (size block) with _ | content
    · simp only [hcontent] at h
      cases h
      refine .inl ⟨rfl, rfl, fun block' hsome => ?_⟩
      obtain rfl := Option.some.inj hsome
      exact hcontent
    simp only [hcontent] at h
    obtain ⟨document, hdocument, h⟩ := exists_of_bind_eq_ok h
    refine .inr ⟨document, .ofBlock block f content document.root, ?_⟩
    have hholds : Holds f s document (.ofBlock block f content document.root) :=
      ⟨block, content, hblock, hcontent, hdocument, rfl⟩
    rcases hvalid : document.isValid with _ | _
    · simp only [hvalid, Bool.false_eq_true, if_false] at h
      rcases memory with _ | last
      · cases h
        exact ⟨_, _, hholds, .alone hvalid rfl, rfl⟩
      · cases h
        exact ⟨_, _, hholds, .stale hvalid rfl, rfl⟩
    · simp only [hvalid, if_true] at h
      cases h
      exact ⟨_, _, hholds, .valid hvalid, rfl⟩
  · rintro (⟨rfl, rfl, hnone⟩ | ⟨document, body, shown, stale, hholds, hshows, rfl⟩)
    · unfold write
      rcases hblock : f.blankFences s with _ | block
      · rfl
      · simp only [hnone block hblock]
    · obtain ⟨block, content, hblock, hcontent, hdocument, rfl⟩ := hholds
      unfold write
      simp only [hblock, hcontent, hdocument, bind, Except.bind]
      cases hshows with
      | valid hvalid =>
        simp only [hvalid, if_true]
        rfl
      | stale hvalid hmemory =>
        simp only [hvalid, hmemory, Bool.false_eq_true, if_false]
        rfl
      | alone hvalid hmemory =>
        simp only [hvalid, hmemory, Bool.false_eq_true, if_false]
        rfl

/-- A literal that is not stale is that of the block, whatever is remembered. -/
theorem write_fresh {p : DataLiteral} (h : write memory s f collection = .ok (some p, next))
    (hfresh : p.stale = false) :
    ∃ block content document, f.blankFences s = some block ∧
      f.contentSpan? (size block) = some content ∧ Document.ofText block = .ok document ∧
      p.text = (Body.ofBlock block f content document.root).text ++ satisfies collection ∧
      p.mappings = (Body.ofBlock block f content document.root).mappings := by
  rcases write_eq_ok_iff.1 h with ⟨hnone, -, -⟩ | ⟨document, body, shown, stale, hholds, hshows, hp⟩
  · cases hnone
  obtain ⟨block, content, hblock, hcontent, hdocument, rfl⟩ := hholds
  obtain rfl := Option.some.inj hp
  refine ⟨block, content, document, hblock, hcontent, hdocument, ?_⟩
  cases hshows with
  | valid => exact ⟨rfl, rfl⟩
  | stale => cases hfresh
  | alone => exact ⟨rfl, rfl⟩

/-! ## Positions -/

/-- The pieces of the literal of a document with this data. -/
def pieces (s : String) (document : Document) : List Piece :=
  bodyPieces (((FrontMatter.scan s).innerLines s).map (lineStart s)) document.root

/-- The mappings of a literal stand where its keys, values and anchors are written. -/
structure Positions (s collection : String) (document : Document) (p : DataLiteral) : Prop where
  text_eq : p.text = textOf (pieces s document) ++ satisfies collection
  /-- The keys and the values that are not null are mapped, in order. -/
  leaves : List.Forall₂ (fun x m => Places p.text x.scalar.span x.text m) document.leaves
    (p.mappings.filter fun m => !isAnchor m)
  separated : p.mappings.IsChain fun a b => a.generated.stop < b.generated.start
  /-- Scaffolding, such as a bracket or a null, lies outside every mapping. -/
  scaffolding : ∀ before t after, pieces s document = before ++ .scaffold t :: after →
    ∀ m ∈ p.mappings, m.generated.stop ≤ size (textOf before) ∨
      size (textOf before) + size t ≤ m.generated.start
  /-- The anchors stand for the blank ones of the first and the last line between the fences. -/
  anchors : List.Forall₂ Anchors ((FrontMatter.scan s).blankEnds s) (p.mappings.filter isAnchor)

/-- **Positions.** A literal that is not stale has its mappings where the data of the document and
its blank lines are written. -/
theorem write_positions {memory next : Memory} {s collection : String} {p : DataLiteral}
    (h : write memory s (FrontMatter.scan s) collection = .ok (some p, next))
    (hfresh : p.stale = false) :
    ∃ block document, (FrontMatter.scan s).blankFences s = some block ∧
      Document.ofText block = .ok document ∧ Positions s collection document p := by
  obtain ⟨block, content, document, hblock, hcontent, hdocument, htext, hmappings⟩ :=
    write_fresh h hfresh
  rw [Body.ofBlock, contentLines_eq hblock hcontent] at htext hmappings
  have hmappings : p.mappings = mappingsOf 0 (pieces s document) := hmappings
  refine ⟨block, document, hblock, hdocument, ?_⟩
  constructor
  case text_eq => exact htext
  case leaves =>
    have hplaces := forall₂_places "" (satisfies collection) (pieces s document)
    rw [pieces, bodyPieces_tokens, List.forall₂_map_left_iff, String.empty_append] at hplaces
    rw [htext, hmappings]
    exact hplaces
  case separated =>
    rw [hmappings]
    exact ((bodyPieces_spaced _ _).pairwise 0).isChain
  case scaffolding =>
    intro before t after hpieces m hm
    rw [hmappings, hpieces] at hm
    have hapart := scaffold_apart hm
    rwa [Nat.zero_add] at hapart
  case anchors =>
    have hanchors := forall₂_anchors 0 (pieces s document)
    rw [pieces, bodyPieces_anchors] at hanchors
    rw [hmappings]
    exact hanchors

/-- A list with a null in it, between two blank lines. -/
def blankLinesText : String := "---\n\na: [1, ~]\n\n---\n"

/-- What is written for it. -/
def blankLinesBody : Body where
  text := preamble ++ "\n\x7b\n\"a\": [1,null,],\n\x7d\n\n"
  mappings := [⟨⟨4, 4⟩, ⟨58, 58⟩, anchorCapabilities⟩, ⟨⟨5, 6⟩, ⟨61, 64⟩, dataCapabilities⟩,
    ⟨⟨9, 10⟩, ⟨67, 68⟩, dataCapabilities⟩, ⟨⟨15, 15⟩, ⟨79, 79⟩, anchorCapabilities⟩]

theorem write_positions_blankLines :
    write none blankLinesText (FrontMatter.scan blankLinesText) "blog" =
        .ok (some ⟨blankLinesBody.text ++ satisfies "blog", blankLinesBody.mappings, [], false⟩,
          some blankLinesBody) ∧
      ∃ block document, (FrontMatter.scan blankLinesText).blankFences blankLinesText = some block ∧
        Document.ofText block = .ok document ∧
        Positions blankLinesText "blog" document
          ⟨blankLinesBody.text ++ satisfies "blog", blankLinesBody.mappings, [], false⟩ := by
  have h : write none blankLinesText (FrontMatter.scan blankLinesText) "blog" =
      .ok (some ⟨blankLinesBody.text ++ satisfies "blog", blankLinesBody.mappings, [], false⟩,
        some blankLinesBody) := by decide +kernel
  exact ⟨h, write_positions h rfl⟩

end DataLiteral

end Polyglot
