import Polyglot.Proofs.Map.Coalesce
import Polyglot.Proofs.Text.Columns

/-!
# Repaired maps

Whatever the segments claim, a repaired map only ties bytes to equal bytes, and it ties exactly the
pairs of the runs between neighbouring segments. Both are statements about the mappings in front of
the catch-all.
-/

namespace Polyglot

open Text

namespace Repair

variable {text generated : String} {segments : List Segment} {unit : ColumnUnit}
  {markup : Markup.Document} {ms : List Mapping}

/-! ## The segments and their runs -/

theorem locate_eq_map {f : Segment → Located} {index previous : ℕ} {located : List Located}
    (h : locate f index previous segments = .ok located) : located = segments.map f := by
  induction segments generalizing index previous located with
  | nil => exact (Except.ok.inj h).symm
  | cons segment rest ih =>
    unfold locate at h
    dsimp only at h
    split_ifs at h with hlt
    rcases hrest : locate f (index + 1) (f segment).generated rest with e | l
    · rw [hrest] at h; exact absurd h (by simp [bind, Except.bind])
    · rw [hrest] at h
      rw [← Except.ok.inj h, ih hrest, List.map_cons]

theorem mem_runs_iff {l : List Located} {m : Mapping} :
    m ∈ runs text generated markup l ↔ ∃ i a b, l[i]? = some a ∧ l[i + 1]? = some b ∧
      run? text generated markup a b = some m := by
  induction l with
  | nil => simp [runs]
  | cons here rest ih =>
    rcases rest with _ | ⟨next, rest⟩
    · simp only [runs, List.not_mem_nil, false_iff, not_exists, not_and]
      intro i a b _ hb
      simp at hb
    · rw [runs, List.mem_append, Option.mem_toList, ih]
      constructor
      · rintro (h | ⟨i, a, b, ha, hb, h⟩)
        · exact ⟨0, here, next, rfl, rfl, h⟩
        · exact ⟨i + 1, a, b, ha, hb, h⟩
      · rintro ⟨i, a, b, ha, hb, h⟩
        rcases i with _ | i
        · obtain rfl := Option.some.inj ha
          obtain rfl := Option.some.inj hb
          exact Or.inl h
        · exact Or.inr ⟨i, a, b, ha, hb, h⟩

/-- Nothing is copied into an empty text. -/
theorem runs_eq_nil (h : generated.isEmpty = true) (l : List Located) :
    runs text generated markup l = [] := by
  apply List.eq_nil_iff_forall_not_mem.2
  intro m hm
  obtain ⟨i, a, b, -, -, hrun⟩ := mem_runs_iff.1 hm
  have hcopy := copies_of_run? hrun
  have hsize : size generated = 0 := by
    rw [String.isEmpty_iff.1 h]; rfl
  have hpos := hcopy.length_pos
  have hle := hcopy.generated_le
  unfold Span.length at hpos
  omega

/-- The mappings of copied code. -/
def copied (text generated : String) (segments : List Segment) (unit : ColumnUnit)
    (markup : Markup.Document) : List Mapping :=
  coalesce (runs text generated markup (segments.map (place text generated unit)))

theorem mappings_eq (h : mappings text generated segments unit markup = .ok ms) :
    ms = copied text generated segments unit markup ++
      (catchAll? text generated (copied text generated segments unit markup)).toList := by
  unfold mappings at h
  split_ifs at h with hempty
  · rw [copied, runs_eq_nil hempty, ← Except.ok.inj h, String.isEmpty_iff.1 hempty]
    rfl
  · rcases hl : locate (place text generated unit) 0 0 segments with e | located
    · rw [hl] at h; exact absurd h (by simp [bind, Except.bind])
    · rw [hl] at h
      rw [← Except.ok.inj h, copied, locate_eq_map hl]

theorem copies_of_mem_runs {l : List Located} :
    ∀ m ∈ runs text generated markup l, m.Copies text generated := by
  intro m hm
  obtain ⟨i, a, b, -, -, hrun⟩ := mem_runs_iff.1 hm
  exact copies_of_run? hrun

/-! ## Soundness -/

/-- Copies that also start between characters, as all do that are placed by UTF-16 columns. -/
theorem starts_of_mem_copied_utf16 {m : Mapping}
    (hm : m ∈ copied text generated segments .utf16 markup) :
    isBoundary text m.source.start = true ∧ isBoundary generated m.generated.start = true := by
  refine forall_coalesce (P := fun m => isBoundary text m.source.start = true ∧
    isBoundary generated m.generated.start = true) (fun a b ha _ _ => ha) (fun m hm => ?_) m hm
  obtain ⟨i, a, b, ha, -, hrun⟩ := mem_runs_iff.1 hm
  obtain ⟨source, hsource, -, rfl⟩ := run?_eq_some_iff.1 hrun
  rw [List.getElem?_map] at ha
  obtain ⟨segment, -, rfl⟩ := Option.map_eq_some_iff.1 ha
  obtain ⟨p, -, rfl⟩ := Option.map_eq_some_iff.1 hsource
  exact ⟨LineTable.isBoundary_offsetOf_utf16 text p,
    LineTable.isBoundary_offsetOf_utf16 generated segment.generated⟩

/-- **Soundness.** Every mapping in front of the catch-all is a copy. It is verbatim if it starts
between characters, which it always does if the segments count UTF-16 columns. -/
theorem mappings_copies (h : mappings text generated segments unit markup = .ok ms) :
    ∃ copied, ms = copied ++ (catchAll? text generated copied).toList ∧
      ∀ m ∈ copied, m.Copies text generated ∧
        (isBoundary text m.source.start = true → isBoundary generated m.generated.start = true →
          m.isVerbatim text generated = true) ∧
        (unit = .utf16 → m.isVerbatim text generated = true) := by
  refine ⟨_, mappings_eq h, fun m hm => ?_⟩
  have hcopy : m.Copies text generated :=
    forall_coalesce (fun a b => Copies.join) copies_of_mem_runs m hm
  refine ⟨hcopy, hcopy.isVerbatim, ?_⟩
  rintro rfl
  obtain ⟨hs, hg⟩ := starts_of_mem_copied_utf16 hm
  exact hcopy.isVerbatim hs hg

/-- Two runs that touch; the second one claims a character that differs in its last byte. -/
def touchingSegments : List Segment :=
  [⟨⟨0, 0⟩, some ⟨0, 0⟩⟩, ⟨⟨1, 0⟩, some ⟨1, 0⟩⟩, ⟨⟨1, 2⟩, none⟩]

theorem mappings_copies_touchingSegments :
    mappings "aé\nbé" "aé\nbè;" touchingSegments .utf16 ⟨.nil, .absent, []⟩ =
        .ok [⟨⟨0, 5⟩, ⟨0, 5⟩, .all⟩] ∧
      ∃ copied, [⟨⟨0, 5⟩, ⟨0, 5⟩, .all⟩] =
          copied ++ (catchAll? "aé\nbé" "aé\nbè;" copied).toList ∧
        ∀ m ∈ copied, m.Copies "aé\nbé" "aé\nbè;" ∧
          (isBoundary "aé\nbé" m.source.start = true →
            isBoundary "aé\nbè;" m.generated.start = true →
            m.isVerbatim "aé\nbé" "aé\nbè;" = true) ∧
          (ColumnUnit.utf16 = .utf16 → m.isVerbatim "aé\nbé" "aé\nbè;" = true) := by
  have h : mappings "aé\nbé" "aé\nbè;" touchingSegments .utf16 ⟨.nil, .absent, []⟩ =
      .ok [⟨⟨0, 5⟩, ⟨0, 5⟩, .all⟩] := by decide +kernel
  exact ⟨h, mappings_copies h⟩

/-! ## Completeness -/

/-- The catch-all goes on nowhere: no copied run has its capabilities. -/
theorem not_continues_catchAll {m n : Mapping} {copied : List Mapping}
    (hm : m.capabilities = .empty ∨ m.capabilities = .all)
    (hn : n ∈ catchAll? text generated copied) : continues m n = false := by
  obtain ⟨start, -, rfl⟩ := Option.map_eq_some_iff.1 hn
  rw [Bool.eq_false_iff]
  intro hc
  have hcap : m.capabilities = catchAllCapabilities := (continues_iff.1 hc).2.2
  rw [hcap] at hm
  exact absurd hm (by decide)

theorem capabilities_of_mem_copied {m : Mapping}
    (hm : m ∈ copied text generated segments unit markup) :
    m.capabilities = .empty ∨ m.capabilities = .all := by
  refine forall_coalesce (P := fun m => m.capabilities = .empty ∨ m.capabilities = .all)
    (fun a b ha _ _ => ha) (fun m hm => ?_) m hm
  obtain ⟨i, a, b, -, -, hrun⟩ := mem_runs_iff.1 hm
  obtain ⟨source, -, -, rfl⟩ := run?_eq_some_iff.1 hrun
  rcases hscript : markup.inScript source with _ | _
  · exact Or.inr rfl
  · exact Or.inl rfl

theorem isChain_mappings :
    (copied text generated segments unit markup ++
      (catchAll? text generated (copied text generated segments unit markup)).toList).IsChain
      fun m n => continues m n = false := by
  rw [List.isChain_append]
  refine ⟨isChain_coalesce _, ?_, fun m hm n hn => ?_⟩
  · rcases catchAll? text generated (copied text generated segments unit markup) with _ | n <;>
      simp
  · have hn' := Option.mem_toList.1 (List.mem_of_mem_head? hn)
    exact not_continues_catchAll (capabilities_of_mem_copied (List.mem_of_mem_getLast? hm)) hn'

/-- **Completeness.** The mappings in front of the catch-all cover exactly the pairs of bytes that
lie in the run between a segment and the next one, and no two neighbours of the whole list go on
into each other. -/
theorem mappings_cover_runs (h : mappings text generated segments unit markup = .ok ms) :
    (∃ copied, ms = copied ++ (catchAll? text generated copied).toList ∧
      ∀ g s c, (∃ m ∈ copied, m.Covers g s c) ↔
        ∃ i here next, segments[i]? = some here ∧ segments[i + 1]? = some next ∧
          InRun text generated markup (place text generated unit here)
            (place text generated unit next) g s c) ∧
      ms.IsChain fun m n => ¬ (m.generated.stop = n.generated.start ∧
        m.source.stop = n.source.start ∧ m.capabilities = n.capabilities) := by
  have hms := mappings_eq h
  refine ⟨⟨_, hms, fun g s c => ?_⟩, ?_⟩
  · rw [copied, exists_covers_coalesce copies_of_mem_runs]
    constructor
    · rintro ⟨m, hm, hc⟩
      obtain ⟨i, a, b, ha, hb, hrun⟩ := mem_runs_iff.1 hm
      rw [List.getElem?_map] at ha hb
      obtain ⟨here, hhere, rfl⟩ := Option.map_eq_some_iff.1 ha
      obtain ⟨next, hnext, rfl⟩ := Option.map_eq_some_iff.1 hb
      exact ⟨i, here, next, hhere, hnext, covers_run?.1 ⟨m, hrun, hc⟩⟩
    · rintro ⟨i, here, next, hhere, hnext, hrun⟩
      obtain ⟨m, hm, hc⟩ := covers_run?.2 hrun
      exact ⟨m, mem_runs_iff.2 ⟨i, _, _, by rw [List.getElem?_map, hhere]; rfl,
        by rw [List.getElem?_map, hnext]; rfl, hm⟩, hc⟩
  · rw [hms]
    refine isChain_mappings.imp ?_
    intro m n hmn
    rw [← continues_iff, hmn]
    exact Bool.false_ne_true

theorem mappings_cover_runs_touchingSegments :
    mappings "aé\nbé" "aé\nbè;" touchingSegments .utf8 ⟨.nil, .absent, []⟩ =
        .ok [⟨⟨0, 5⟩, ⟨0, 5⟩, .all⟩] ∧
      (∃ copied, [⟨⟨0, 5⟩, ⟨0, 5⟩, .all⟩] =
          copied ++ (catchAll? "aé\nbé" "aé\nbè;" copied).toList ∧
        ∀ g s c, (∃ m ∈ copied, m.Covers g s c) ↔
          ∃ i here next, touchingSegments[i]? = some here ∧ touchingSegments[i + 1]? = some next ∧
            InRun "aé\nbé" "aé\nbè;" ⟨.nil, .absent, []⟩
              (place "aé\nbé" "aé\nbè;" .utf8 here) (place "aé\nbé" "aé\nbè;" .utf8 next)
              g s c) ∧
      List.IsChain (fun m n : Mapping => ¬ (m.generated.stop = n.generated.start ∧
        m.source.stop = n.source.start ∧ m.capabilities = n.capabilities))
        [⟨⟨0, 5⟩, ⟨0, 5⟩, .all⟩] := by
  have h : mappings "aé\nbé" "aé\nbè;" touchingSegments .utf8 ⟨.nil, .absent, []⟩ =
      .ok [⟨⟨0, 5⟩, ⟨0, 5⟩, .all⟩] := by decide +kernel
  exact ⟨h, mappings_cover_runs h⟩

end Repair

end Polyglot
