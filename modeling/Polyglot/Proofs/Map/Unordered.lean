import Polyglot.Proofs.Map.Repair
import Polyglot.Proofs.Outcome
import Polyglot.Proofs.Text.Places

/-!
# Segments out of order

Segments are refused if and only if their generated offsets go back, and the error names the first place
where they do. Places in order have offsets in order, wherever they point, so segments that are in the
order of their places are never refused (`Repair.mappings_eq_error_iff`).
-/

namespace Polyglot

namespace Repair

variable {text generated : String} {segments : List Segment} {unit : ColumnUnit}
  {markup : Markup.Document} {f : Segment → Located} {offsets : List ℕ} {i j a b index previous x : ℕ}
  {e : UnorderedSegments}

/-- Offset number `i` is `b`, less than the offset `a` in front of it. -/
def GoesBack (offsets : List ℕ) (i a b : ℕ) : Prop :=
  0 < i ∧ offsets[i - 1]? = some a ∧ offsets[i]? = some b ∧ b < a

/-- The generated offsets of segments, each clamped into the text. -/
def generatedOffsets (generated : String) (unit : ColumnUnit) (segments : List Segment) : List ℕ :=
  segments.map fun a => (LineTable.ofText generated).offsetOf generated a.generated unit

theorem goesBack_cons_succ :
    GoesBack (x :: offsets) (i + 2) a b ↔ GoesBack offsets (i + 1) a b := by
  simp [GoesBack]

theorem goesBack_one : GoesBack (x :: offsets) 1 a b ↔ x = a ∧ offsets[0]? = some b ∧ b < a := by
  simp [GoesBack]

/-- Nothing is less than an offset at the start. -/
theorem goesBack_zero_cons : GoesBack (0 :: offsets) (i + 1) a b ↔ GoesBack offsets i a b := by
  rcases i with _ | i
  · rw [goesBack_one]
    constructor
    · rintro ⟨rfl, -, hlt⟩
      exact absurd hlt (Nat.not_lt_zero b)
    · exact fun h => absurd h.1 (lt_irrefl 0)
  · exact goesBack_cons_succ

/-- **Refusal.** Segments behind the offset `previous` are refused where they first go back. -/
theorem locate_eq_error_iff : locate f index previous segments = .error e ↔
    ∃ i, e.index = index + i ∧
      GoesBack (previous :: segments.map fun a => (f a).generated) (i + 1) e.previous e.offset ∧
      ∀ j < i, ∀ a b,
        ¬ GoesBack (previous :: segments.map fun a => (f a).generated) (j + 1) a b := by
  induction segments generalizing index previous with
  | nil => simp [locate, GoesBack]
  | cons segment rest ih =>
    have hfirst (a b : ℕ) :
        GoesBack (previous :: (segment :: rest).map fun a => (f a).generated) 1 a b ↔
          previous = a ∧ (f segment).generated = b ∧ b < a := by
      rw [goesBack_one]
      simp
    have hlater (i a b : ℕ) :
        GoesBack (previous :: (segment :: rest).map fun a => (f a).generated) (i + 2) a b ↔
          GoesBack ((f segment).generated :: rest.map fun a => (f a).generated) (i + 1) a b :=
      goesBack_cons_succ
    unfold locate
    dsimp only
    split_ifs with hlt
    · constructor
      · intro h
        obtain rfl := Except.error.inj h
        exact ⟨0, rfl, (hfirst _ _).2 ⟨rfl, rfl, hlt⟩, nofun⟩
      · rintro ⟨i, hindex, hback, hleast⟩
        have hi : i = 0 := by
          by_contra hne
          exact hleast 0 (Nat.pos_of_ne_zero hne) _ _ ((hfirst _ _).2 ⟨rfl, rfl, hlt⟩)
        subst hi
        obtain ⟨hprevious, hoffset, -⟩ := (hfirst _ _).1 hback
        rcases e with ⟨k, p, o⟩
        subst hindex hprevious hoffset
        rfl
    · rw [bind_pure_eq_error_iff, ih]
      have hnone (a b : ℕ) :
          ¬ GoesBack (previous :: (segment :: rest).map fun a => (f a).generated) 1 a b := by
        rw [hfirst]
        rintro ⟨rfl, rfl, h⟩
        exact hlt h
      constructor
      · rintro ⟨i, hindex, hback, hleast⟩
        refine ⟨i + 1, by omega, (hlater _ _ _).2 hback, ?_⟩
        rintro (_ | j) hj a b
        · exact hnone a b
        · rw [hlater]
          exact hleast j (by omega) a b
      · rintro ⟨_ | i, hindex, hback, hleast⟩
        · exact absurd hback (hnone _ _)
        · refine ⟨i, by omega, (hlater _ _ _).1 hback, fun j hj a b => ?_⟩
          rw [← hlater]
          exact hleast (j + 1) (by omega) a b

/-- In an empty text all offsets are its start. -/
theorem not_goesBack_of_isEmpty (h : generated.isEmpty = true) :
    ¬ GoesBack (generatedOffsets generated unit segments) i a b := by
  rintro ⟨-, ha, -, hlt⟩
  obtain ⟨segment, -, rfl⟩ := List.mem_map.1 (List.mem_of_getElem? ha)
  have hle := LineTable.offsetIn_le_size generated segment.generated.line segment.generated.column unit
  have hsize : Text.size generated = 0 := by
    rw [String.isEmpty_iff.1 h]
    rfl
  unfold LineTable.offsetOf at hlt
  omega

/-- Code cannot be mapped if and only if its segments go back, and the error tells where they first do. -/
theorem refused_iff : mappings text generated segments unit markup = .error e ↔
    GoesBack (generatedOffsets generated unit segments) e.index e.previous e.offset ∧
      ∀ i a b, GoesBack (generatedOffsets generated unit segments) i a b → e.index ≤ i := by
  unfold mappings
  split_ifs with hempty
  · exact ⟨nofun, fun h => absurd h.1 (not_goesBack_of_isEmpty hempty)⟩
  have hoffsets : (segments.map fun a => (place text generated unit a).generated) =
      generatedOffsets generated unit segments := rfl
  simp only [bind_pure_eq_error_iff, locate_eq_error_iff, hoffsets, goesBack_zero_cons, Nat.zero_add]
  constructor
  · rintro ⟨i, rfl, hback, hleast⟩
    exact ⟨hback, fun j a b hj => Nat.not_lt.1 fun hlt => hleast j hlt a b hj⟩
  · rintro ⟨hback, hleast⟩
    exact ⟨_, rfl, hback, fun j hlt a b hj => absurd (hleast j a b hj) (Nat.not_le.2 hlt)⟩

theorem exists_refused_iff : (∃ e, mappings text generated segments unit markup = .error e) ↔
    ∃ i a b, GoesBack (generatedOffsets generated unit segments) i a b := by
  classical
  constructor
  · rintro ⟨e, he⟩
    exact ⟨_, _, _, (refused_iff.1 he).1⟩
  · intro h
    obtain ⟨a, b, hback⟩ := Nat.find_spec h
    exact ⟨⟨Nat.find h, a, b⟩, refused_iff.2 ⟨hback, fun i a b hi => Nat.find_min' h ⟨a, b, hi⟩⟩⟩

/-- Places in order have offsets in order. -/
theorem not_goesBack_of_ordered
    (h : segments.IsChain fun a b => toLex (a.generated.line, a.generated.column) ≤
      toLex (b.generated.line, b.generated.column)) :
    ¬ GoesBack (generatedOffsets generated unit segments) i a b := by
  rintro ⟨hi, ha, hb, hlt⟩
  obtain ⟨j, rfl⟩ := Nat.exists_eq_add_of_lt hi
  rw [Nat.zero_add, Nat.add_sub_cancel] at ha
  rw [Nat.zero_add] at hb
  unfold generatedOffsets at ha hb
  rw [List.getElem?_map] at ha hb
  obtain ⟨x, hx, rfl⟩ := Option.map_eq_some_iff.1 ha
  obtain ⟨y, hy, rfl⟩ := Option.map_eq_some_iff.1 hb
  obtain ⟨hj, rfl⟩ := List.getElem?_eq_some_iff.1 hx
  obtain ⟨hj', rfl⟩ := List.getElem?_eq_some_iff.1 hy
  have hle := LineTable.offsetIn_monotone generated unit (h.getElem j hj')
  exact absurd hlt (Nat.not_lt.2 hle)

/-- **Refusal.** Code cannot be mapped if and only if the offset of a segment is less than the one in
front of it, and the error tells the first such segment, with both offsets. So segments whose places are
in order can be used, wherever the places point. -/
theorem mappings_eq_error_iff (text generated : String) (segments : List Segment) (unit : ColumnUnit)
    (markup : Markup.Document) :
    (∀ e, mappings text generated segments unit markup = .error e ↔
      GoesBack (generatedOffsets generated unit segments) e.index e.previous e.offset ∧
        ∀ i a b, GoesBack (generatedOffsets generated unit segments) i a b → e.index ≤ i) ∧
    ((∃ e, mappings text generated segments unit markup = .error e) ↔
      ∃ i a b, GoesBack (generatedOffsets generated unit segments) i a b) ∧
    ((segments.IsChain fun a b => toLex (a.generated.line, a.generated.column) ≤
        toLex (b.generated.line, b.generated.column)) →
      ∃ ms, mappings text generated segments unit markup = .ok ms) := by
  refine ⟨fun e => refused_iff, exists_refused_iff, fun h => ?_⟩
  rcases hms : mappings text generated segments unit markup with e | ms
  · exact absurd (refused_iff.1 hms).1 (not_goesBack_of_ordered h)
  · exact ⟨ms, rfl⟩

end Repair

end Polyglot
