import Polyglot.Proofs.Text.Boundary
import Polyglot.Projection.DataLiteral

/-!
# Pieces written out

Pieces are written one behind the other, so each mapping lies within the text of its piece
(`bounds_of_mem`). Tokens keep their text (`forall₂_places`), scaffolding is covered by no mapping
(`scaffold_apart`), and where each mapped piece is followed by scaffolding no two mappings touch
(`Spaced.pairwise`).
-/

namespace Polyglot

namespace DataLiteral

open Text

/-- The mapping is an anchor of a blank line. -/
def isAnchor (m : Mapping) : Bool := m.capabilities == anchorCapabilities

/-- The mapping leads from a span of the source to a token of the generated text. -/
structure Places (generated : String) (source : Span) (token : String) (m : Mapping) : Prop where
  source_eq : m.source = source
  slice?_eq : m.generated.slice? generated = some token
  capabilities_eq : m.capabilities = dataCapabilities

/-- The mapping is empty on both sides, and stands for an offset of the source. -/
structure Anchors (source : ℕ) (m : Mapping) : Prop where
  source_eq : m.source = .emptyAt source
  generated_eq : m.generated = .emptyAt m.generated.start
  capabilities_eq : m.capabilities = .navigation

namespace Piece

variable {p : Piece} {ps qs : List Piece} {m : Mapping} {i : ℕ} {t : String}

/-! ## Pieces in a row -/

theorem textOf_append (ps qs : List Piece) : textOf (ps ++ qs) = textOf ps ++ textOf qs := by
  induction ps with
  | nil => exact String.empty_append.symm
  | cons p ps ih => rw [List.cons_append, textOf, textOf, ih, String.append_assoc]

theorem mappingsOf_append (i : ℕ) (ps qs : List Piece) :
    mappingsOf i (ps ++ qs) = mappingsOf i ps ++ mappingsOf (i + size (textOf ps)) qs := by
  induction ps generalizing i with
  | nil => simp [textOf, mappingsOf]
  | cons p ps ih =>
    rw [List.cons_append, mappingsOf, mappingsOf, ih, textOf, size_append, List.append_assoc,
      Nat.add_assoc]

theorem bounds_of_mem (h : m ∈ mappingsOf i ps) :
    i ≤ m.generated.start ∧ m.generated.start ≤ m.generated.stop ∧
      m.generated.stop ≤ i + size (textOf ps) := by
  induction ps generalizing i with
  | nil => exact absurd h List.not_mem_nil
  | cons p ps ih =>
    rw [textOf, size_append]
    rw [mappingsOf] at h
    rcases List.mem_append.1 h with hp | hps
    · cases p with
      | scaffold t => exact absurd hp List.not_mem_nil
      | token source t =>
        obtain rfl := List.mem_singleton.1 hp
        show i ≤ i ∧ i ≤ i + size t ∧ i + size t ≤ i + (size t + size (textOf ps))
        omega
      | anchor source =>
        obtain rfl := List.mem_singleton.1 hp
        exact ⟨le_rfl, le_rfl, Nat.le_add_right i _⟩
    · obtain ⟨h1, h2, h3⟩ := ih hps
      omega

/-- No mapping reaches into scaffolding. -/
theorem scaffold_apart (h : m ∈ mappingsOf i (ps ++ .scaffold t :: qs)) :
    m.generated.stop ≤ i + size (textOf ps) ∨
      i + size (textOf ps) + size t ≤ m.generated.start := by
  rw [mappingsOf_append] at h
  rcases List.mem_append.1 h with hps | hqs
  · exact Or.inl (bounds_of_mem hps).2.2
  · have hqs : m ∈ mappingsOf (i + size (textOf ps) + size t) qs := hqs
    exact Or.inr (bounds_of_mem hqs).1

/-! ## Separation -/

/-- Each piece that is mapped has scaffolding behind it. -/
inductive Spaced : List Piece → Prop
  | nil : Spaced []
  | scaffold (t : String) {ps : List Piece} : Spaced ps → Spaced (.scaffold t :: ps)
  | mapped (p : Piece) {t : String} {ps : List Piece} :
      0 < size t → Spaced ps → Spaced (p :: .scaffold t :: ps)

theorem Spaced.append (hp : Spaced ps) (hq : Spaced qs) : Spaced (ps ++ qs) := by
  induction hp with
  | nil => exact hq
  | scaffold t _ ih => exact ih.scaffold t
  | mapped p ht _ ih => exact ih.mapped p ht

/-- **Separation.** Between a mapping and the next one stands at least one byte. -/
theorem Spaced.pairwise (h : Spaced ps) (i : ℕ) :
    (mappingsOf i ps).Pairwise fun a b => a.generated.stop < b.generated.start := by
  induction h generalizing i with
  | nil => exact List.Pairwise.nil
  | scaffold t _ ih => exact ih _
  | @mapped p t ps ht _ ih =>
    rw [← List.singleton_append, mappingsOf_append, List.pairwise_append]
    refine ⟨?_, ih _, fun a ha b hb => ?_⟩
    · rw [mappingsOf, mappingsOf, List.append_nil]
      rcases p.mapping? i with _ | m
      · exact List.Pairwise.nil
      · exact List.pairwise_singleton _ m
    · have hb : b ∈ mappingsOf (i + size (textOf [p]) + size t) ps := hb
      have ha := (bounds_of_mem ha).2.2
      have hb := (bounds_of_mem hb).1
      omega

/-! ## Tokens and anchors -/

/-- The source and the text of a token. -/
def token? : Piece → Option (Span × String)
  | token source text => some (source, text)
  | _ => none

/-- The place in the source of an anchor. -/
def anchor? : Piece → Option ℕ
  | anchor source => some source
  | _ => none

/-- **Tokens.** The mappings that are no anchors are those of the tokens, in order. -/
theorem forall₂_places (before after : String) (ps : List Piece) :
    List.Forall₂ (fun x m => Places (before ++ textOf ps ++ after) x.1 x.2 m)
      (ps.filterMap token?) ((mappingsOf (size before) ps).filter fun m => !isAnchor m) := by
  induction ps generalizing before with
  | nil => exact List.Forall₂.nil
  | cons p ps ih =>
    have hsplit : before ++ p.text ++ textOf ps = before ++ textOf (p :: ps) := by
      rw [textOf, String.append_assoc]
    have ih := ih (before ++ p.text)
    rw [hsplit, size_append] at ih
    rw [mappingsOf, List.filter_append]
    cases p with
    | scaffold t => exact ih
    | anchor source => exact ih
    | token source t =>
      refine List.Forall₂.cons ⟨rfl, ?_, rfl⟩ ih
      refine Span.slice?_eq_some_iff.2 ⟨before, textOf ps ++ after, ?_, rfl, size_append _ _⟩
      rw [textOf, ← String.append_assoc, ← String.append_assoc]
      rfl

/-- **Anchors.** The mappings that are anchors are those of the anchors, in order. -/
theorem forall₂_anchors (i : ℕ) (ps : List Piece) :
    List.Forall₂ Anchors (ps.filterMap anchor?) ((mappingsOf i ps).filter isAnchor) := by
  induction ps generalizing i with
  | nil => exact List.Forall₂.nil
  | cons p ps ih =>
    rw [mappingsOf, List.filter_append]
    cases p with
    | scaffold t => exact ih _
    | anchor source => exact List.Forall₂.cons ⟨rfl, rfl, rfl⟩ (ih _)
    | token source t => exact ih _

end Piece

end DataLiteral

end Polyglot
