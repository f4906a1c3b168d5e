import Polyglot.Proofs.Map.Order

/-!
# Where a generated character comes from

A lookup in a repaired map takes the first mapping around the offset, and both ends of a mapping count.
So a byte of a copy resolves to the byte that it is a copy of, unless the copy is asked for its first
byte and another one that allows the filter ends right there: an offset is then that of a cursor behind
the earlier copy (`toSource?_mappings`).
-/

namespace Polyglot

open Text

namespace Mapping

variable {m : Mapping} {source generated : String} {g : ℕ} {filter : Capabilities}
  {as bs : List Mapping}

/-- A copy carries each of its offsets, the one behind it included, over without a cut. -/
theorem Copies.toSource?_eq (h : m.Copies source generated) (hg : m.generated.contains g = true) :
    m.toSource? g = some (m.source.start + (g - m.generated.start)) := by
  have hlen := h.length_eq
  have hbounds := Span.contains_iff.1 hg
  unfold toSource?
  rw [carry_eq_some hg, Nat.min_eq_left]
  unfold Span.length at hlen ⊢
  omega

/-- A scan takes the first mapping that holds the offset and allows the filter. -/
theorem scanGenerated?_of_split (hm : m.allows filter = true) (hg : m.generated.contains g = true)
    (has : ∀ a ∈ as, a.allows filter = true → a.generated.contains g = false) :
    scanGenerated? (as ++ m :: bs) g filter = some m := by
  unfold scanGenerated?
  rw [List.find?_eq_some_iff_append]
  refine ⟨by rw [hm, hg]; rfl, as, bs, rfl, fun a ha => ?_⟩
  rcases hallows : a.allows filter with _ | _
  · rfl
  · rw [has a ha hallows]
    rfl

end Mapping

namespace Repair

variable {text generated : String} {segments : List Segment} {unit : ColumnUnit}
  {markup : Markup.Document} {ms : List Mapping}

/-- The answer of the first copy around an offset. -/
theorem toSource?_of_front {m : Mapping} {g : ℕ} {filter : Capabilities}
    (h : mappings text generated segments unit markup = .ok ms)
    (hm : m ∈ copied text generated segments unit markup) (hallows : m.allows filter = true)
    (hg : m.generated.contains g = true)
    (hfront : ∀ a ∈ copied text generated segments unit markup, a.allows filter = true →
      a.generated.stop ≤ m.generated.start → a.generated.stop < g) :
    (SourceMap.ofList ms).toSource? g filter =
      some (m.source.start + (g - m.generated.start)) := by
  have hlaid := mappings_laidOut h
  obtain ⟨as, bs, hsplit⟩ := List.append_of_mem hm
  have hms : ms = as ++ m :: (bs ++ (catchAll? text generated
      (copied text generated segments unit markup)).toList) := by
    rw [mappings_eq h, hsplit, List.append_assoc, List.cons_append]
  have hscan : Mapping.scanGenerated? ms g filter = some m := by
    rw [hms]
    refine Mapping.scanGenerated?_of_split hallows hg fun a ha hafilter => ?_
    have hmem : a ∈ copied text generated segments unit markup := by
      rw [hsplit]
      exact List.mem_append_left _ ha
    have hapart := hlaid.apart
    rw [hms] at hapart
    have hlt := hfront a hmem hafilter
      ((List.pairwise_append.1 hapart).2.2 a ha m List.mem_cons_self)
    rw [Bool.eq_false_iff, ne_eq, Span.contains_iff]
    omega
  have hascend : Mapping.Ascend (SourceMap.ofList ms).toList := by
    rw [hlaid.toList_ofList]
    exact hlaid.ascend
  rw [SourceMap.toSource?_eq hascend, hlaid.toList_ofList, Mapping.scanSource?_eq_bind, hscan]
  exact (copies_of_mem_copied hm).toSource?_eq hg

/-- **Resolution.** A byte of a copy resolves to the byte it was copied from, unless a copy that allows
the filter ends in front of it; the answer is then the end of that copy's source. -/
theorem toSource?_mappings (h : mappings text generated segments unit markup = .ok ms) :
    ∃ copies, ms = copies ++ (catchAll? text generated copies).toList ∧
      (∀ m ∈ copies, m.capabilities ≠ catchAllCapabilities) ∧
      ∀ m ∈ copies, ∀ g filter, m.generated.containsByte g = true → m.allows filter = true →
        (∀ p ∈ copies, p.generated.stop = g → p.allows filter = true →
          (SourceMap.ofList ms).toSource? g filter = some p.source.stop) ∧
        ((∀ p ∈ copies, p.generated.stop = g → p.allows filter = false) →
          (SourceMap.ofList ms).toSource? g filter =
              some (m.source.start + (g - m.generated.start)) ∧
            ∃ b, byte? text (m.source.start + (g - m.generated.start)) = some b ∧
              byte? generated g = some b) := by
  refine ⟨_, mappings_eq h, fun m hm => ?_, fun m hm g filter hg hfilter => ?_⟩
  · have hcap := capabilities_of_mem_copied hm
    intro heq
    rw [heq] at hcap
    exact absurd hcap (by decide)
  have hbounds := Span.containsByte_iff.1 hg
  constructor
  · -- No copy in front of one that ends at the offset reaches as far.
    rintro p hp rfl hallows
    have hpos := (copies_of_mem_copied hp).length_pos
    have hlen := (copies_of_mem_copied hp).length_eq
    unfold Span.length at hpos hlen
    rw [toSource?_of_front h hp hallows (Span.contains_iff.2 (by omega)) fun a _ _ hle => by omega]
    congr 1
    omega
  · intro hfree
    have hcopies := copies_of_mem_copied hm
    constructor
    · refine toSource?_of_front h hm hfilter (Span.contains_iff.2 (by omega))
        fun a ha hallows hle => ?_
      rcases Nat.lt_or_eq_of_le (hle.trans hbounds.1) with hlt | heq
      · exact hlt
      · rw [hfree a ha heq] at hallows
        cases hallows
    · have hlt : g - m.generated.start < m.generated.length := by
        unfold Span.length
        omega
      have hbyte := hcopies.byte?_eq hlt
      rw [Nat.add_sub_cancel' hbounds.1] at hbyte
      have hsize : g < size generated := hbounds.2.trans_le hcopies.generated_le
      rw [hbyte]
      exact ⟨generated.getUTF8Byte ⟨g⟩ hsize, dif_pos hsize, dif_pos hsize⟩

/-- Two characters of the source in the other order, and nothing behind them. -/
def swappedSegments : List Segment :=
  [⟨⟨0, 0⟩, some ⟨0, 1⟩⟩, ⟨⟨0, 1⟩, some ⟨0, 0⟩⟩, ⟨⟨0, 2⟩, none⟩]

/-- The two mappings of the swapped characters. -/
def swappedMappings : List Mapping :=
  [⟨⟨1, 2⟩, ⟨0, 1⟩, .all⟩, ⟨⟨0, 1⟩, ⟨1, 2⟩, .all⟩]

theorem mappings_swapped : mappings "ab" "ba" swappedSegments .utf8
    (Markup.Document.ofText "ab") = .ok swappedMappings := by decide +kernel

theorem toSource?_mappings_swapped :
    mappings "ab" "ba" swappedSegments .utf8 (Markup.Document.ofText "ab") = .ok swappedMappings ∧
      ∃ copies, swappedMappings = copies ++ (catchAll? "ab" "ba" copies).toList ∧
        (∀ m ∈ copies, m.capabilities ≠ catchAllCapabilities) ∧
        ∀ m ∈ copies, ∀ g filter, m.generated.containsByte g = true → m.allows filter = true →
          (∀ p ∈ copies, p.generated.stop = g → p.allows filter = true →
            (SourceMap.ofList swappedMappings).toSource? g filter = some p.source.stop) ∧
          ((∀ p ∈ copies, p.generated.stop = g → p.allows filter = false) →
            (SourceMap.ofList swappedMappings).toSource? g filter =
                some (m.source.start + (g - m.generated.start)) ∧
              ∃ b, byte? "ab" (m.source.start + (g - m.generated.start)) = some b ∧
                byte? "ba" g = some b) :=
  ⟨mappings_swapped, toSource?_mappings mappings_swapped⟩

/-- At a seam the first byte of a copy is not what the lookup answers. -/
theorem not_toSource?_at_seam :
    ¬ ∀ (text generated : String) (segments : List Segment) (unit : ColumnUnit)
      (ms copies : List Mapping),
      mappings text generated segments unit (Markup.Document.ofText text) = .ok ms →
      ms = copies ++ (catchAll? text generated copies).toList →
      ∀ m ∈ copies, ∀ g filter, m.generated.containsByte g = true → m.allows filter = true →
        (SourceMap.ofList ms).toSource? g filter =
          some (m.source.start + (g - m.generated.start)) := by
  intro h
  have hseam := h "ab" "ba" swappedSegments .utf8 swappedMappings swappedMappings mappings_swapped
    (by decide +kernel) ⟨⟨0, 1⟩, ⟨1, 2⟩, .all⟩ (by decide) 1 0 (by decide) (by decide)
  have hanswer : (SourceMap.ofList swappedMappings).toSource? 1 0 = some 2 := by cbv
  rw [hanswer] at hseam
  exact absurd hseam (by decide)

end Repair

end Polyglot
