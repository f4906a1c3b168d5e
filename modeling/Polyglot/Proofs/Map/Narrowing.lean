import Polyglot.Proofs.Map.Order
import Polyglot.Proofs.Markup.Region

/-!
# Mappings into scripts

A copied run that begins in a script keeps no capability. So a copy inside the region of a script is
narrowed, unless it comes from an element that starts in the region: the region is narrowed whatever the
generated code if and only if no such element stands in it (`narrows_iff`).
-/

namespace Polyglot

open Text

namespace Repair

variable {text generated : String} {segments : List Segment} {unit : ColumnUnit}
  {markup : Markup.Document} {ms : List Mapping} {m : Mapping} {o : ℕ}

/-- No mapping from inside the span, of whatever generated code, can be formatted or renamed. -/
def Narrows (text : String) (r : Span) : Prop :=
  ∀ generated segments unit ms,
    mappings text generated segments unit (Markup.Document.ofText text) = .ok ms →
    ∀ m ∈ ms, r.containsSpan m.source = true →
      m.allows .format = false ∧ m.allows .rename = false

/-- A copy has the capabilities of the place where it begins. -/
theorem capabilities_copied (hm : m ∈ copied text generated segments unit markup) :
    m.capabilities =
      if markup.inScript m.source.start then scriptCapabilities else .all := by
  refine forall_coalesce (P := fun m => m.capabilities =
    if markup.inScript m.source.start then scriptCapabilities else .all)
    (fun a b ha _ _ => ha) (fun m hm => ?_) m hm
  obtain ⟨i, a, b, -, -, hrun⟩ := mem_runs_iff.1 hm
  obtain ⟨source, -, -, rfl⟩ := run?_eq_some_iff.1 hrun
  rfl

/-- Spans whose every byte lies in a script are narrowed. -/
theorem narrows_of_inScript {r : Span}
    (h : ∀ o, r.containsByte o = true → (Markup.Document.ofText text).inScript o = true) :
    Narrows text r := by
  intro generated segments unit ms hms m hm hr
  rw [mappings_eq hms] at hm
  rcases List.mem_append.1 hm with hm | hm
  · obtain ⟨hstart, hstop⟩ : r.start ≤ m.source.start ∧ m.source.stop ≤ r.stop := by
      unfold Span.containsSpan at hr
      simpa using hr
    have hpos := (copies_of_mem_copied hm).length_pos
    have hlen := (copies_of_mem_copied hm).length_eq
    unfold Span.length at hpos hlen
    have hcap := capabilities_copied hm
    rw [h m.source.start (Span.containsByte_iff.2 (by omega)), if_pos rfl] at hcap
    unfold Mapping.allows
    rw [hcap]
    decide
  · obtain ⟨start, -, rfl⟩ := Option.map_eq_some_iff.1 (Option.mem_toList.1 hm)
    unfold Mapping.allows
    dsimp only
    decide

/-- A `<` of the source is a copy of a `<`. -/
theorem copyLength_lt (ho : octet? text o = some '<') : copyLength text o "<" 0 1 = 1 := by
  have hgreatest := isGreatest_copyLength text o "<" 0 1
  refine hgreatest.1.1.antisymm (hgreatest.2 ⟨le_rfl, fun k hk => ?_, .inr ⟨?_, ?_⟩⟩)
  · obtain rfl : k = 0 := by omega
    obtain ⟨b, hb, hoctet⟩ := Option.map_eq_some_iff.1 ho
    refine ⟨b, hb, ?_⟩
    have hlt : octet? "<" 0 = some '<' := by decide +kernel
    obtain ⟨b', hb', hoctet'⟩ := Option.map_eq_some_iff.1 hlt
    rw [octet_injective (hoctet.trans hoctet'.symm)]
    exact hb'
  · exact isBoundary_succ_of_ascii ho (by decide)
  · decide +kernel

/-- There is code that copies just the `<` at an offset of the source. -/
theorem exists_copy (markup : Markup.Document) (ho : octet? text o = some '<') :
    ∃ segments ms, mappings text "<" segments .utf8 markup = .ok ms ∧
      .verbatim o 0 1 (if markup.inScript o then scriptCapabilities else .all) ∈ ms := by
  obtain ⟨line, column, hoffset⟩ := LineTable.exists_offset (lt_size_of_octet? ho).le
  let copy := Mapping.verbatim o 0 1 (if markup.inScript o then scriptCapabilities else .all)
  have hrun : run? text "<" markup ⟨0, some o⟩ ⟨1, none⟩ = some copy := by
    have hlength := copyLength_lt ho
    refine run?_eq_some_iff.2 ⟨o, rfl, ?_, ?_⟩
    · show copyLength text o "<" 0 1 ≠ 0
      rw [hlength]
      exact one_ne_zero
    · show copy = Mapping.verbatim o 0 (copyLength text o "<" 0 1) _
      rw [hlength]
      rfl
  have hruns : runs text "<" markup [⟨0, some o⟩, ⟨1, none⟩] = [copy] := by
    unfold runs
    rw [hrun]
    rfl
  have hlocate : locate (place text "<" .utf8) 0 0
      [⟨⟨0, 0⟩, some ⟨line, column⟩⟩, ⟨⟨0, 1⟩, none⟩] = .ok [⟨0, some o⟩, ⟨1, none⟩] := by
    rw [← hoffset]
    rfl
  refine ⟨[⟨⟨0, 0⟩, some ⟨line, column⟩⟩, ⟨⟨0, 1⟩, none⟩],
    copy :: (catchAll? text "<" [copy]).toList, ?_, List.mem_cons_self⟩
  unfold mappings
  rw [if_neg (by decide), hlocate]
  show Except.ok (coalesce (runs text "<" markup _) ++ _) = _
  rw [hruns]
  rfl

/-- A span in which an element starts that is no script is not narrowed. -/
theorem not_narrows {r : Span} {e : ℕ × Markup.Node}
    (he : e ∈ (Markup.Document.ofText text).elements)
    (hstart : r.containsByte e.2.span.start = true) (htag : e.2.isTag "script" = false) :
    ¬ Narrows text r := by
  intro hnarrows
  obtain ⟨segments, ms, hms, hm⟩ := exists_copy (Markup.Document.ofText text)
    (Markup.octet?_start he)
  rw [Markup.inScript_start he, htag, if_neg Bool.false_ne_true] at hm
  rw [Span.containsByte_iff] at hstart
  have hinside : r.containsSpan (.withLength e.2.span.start 1) = true := by
    unfold Span.containsSpan Span.withLength
    simpa using hstart
  have hformat := (hnarrows _ _ _ _ hms _ hm hinside).1
  have hall : (Mapping.verbatim e.2.span.start 0 1 .all).allows .format = true :=
    Capabilities.allows_all .format
  rw [hall] at hformat
  cases hformat

/-- **Narrowing.** The region of a script is narrowed, whatever the generated code, if and only if each
element that starts in it is a script too. So it is if the name of the script is in lower case and no
`</script/` stands in the region. -/
theorem narrows_iff {r : Markup.Region}
    (hr : r ∈ (Markup.Document.ofText text).regions (size text)) (hkind : r.kind = .scriptBlock) :
    (Narrows text r.span ↔
      ∀ e ∈ (Markup.Document.ofText text).elements, r.span.containsByte e.2.span.start = true →
        e.2.isTag "script" = true) ∧
    ((∃ e, r.element = some e ∧ e.2.tag = "script") →
      (∀ q, r.span.containsByte q = true → ¬ Markup.SlashedEndAt text "script".toList q) →
      Narrows text r.span) := by
  obtain ⟨e, he⟩ := Markup.exists_isContent hr (.inr hkind)
  have hiff : Narrows text r.span ↔ ∀ e ∈ (Markup.Document.ofText text).elements,
      r.span.containsByte e.2.span.start = true → e.2.isTag "script" = true := by
    constructor
    · intro hnarrows d hd hstart
      by_contra htag
      exact not_narrows hd hstart (Bool.eq_false_iff.2 htag) hnarrows
    · exact fun hall => narrows_of_inScript fun o ho => he.inScript hkind hall ho
  refine ⟨hiff, ?_⟩
  rintro ⟨e', he', htag⟩ hslash
  obtain rfl : e = e' := Option.some.inj (he.element.symm.trans he')
  have hraw : Markup.isRawTextName e.2.tag.toList = true := by
    rw [htag]
    decide
  refine hiff.2 fun d hd hstart => ?_
  rw [he.not_mem_elements_of_raw hraw (htag ▸ hslash) d hd] at hstart
  cases hstart

theorem narrows_iff_lowerCase :
    ∃ r ∈ (Markup.Document.ofText "<script>f()</script>").regions (size "<script>f()</script>"),
      r.kind = .scriptBlock ∧ r.span = ⟨8, 11⟩ ∧
        (∃ e, r.element = some e ∧ e.2.tag = "script") ∧
        Narrows "<script>f()</script>" r.span := by
  have hregion : ∃ r ∈ (Markup.Document.ofText "<script>f()</script>").regions
      (size "<script>f()</script>"), r.kind = .scriptBlock ∧ r.span = ⟨8, 11⟩ ∧
        (r.element.any fun e => e.2.tag == "script") = true := by decide +kernel
  obtain ⟨r, hr, hkind, hspan, helement⟩ := hregion
  have helement : ∃ e, r.element = some e ∧ e.2.tag = "script" := by
    obtain ⟨e, he, htag⟩ := (Option.any_eq_true _ _).1 helement
    exact ⟨e, he, beq_iff_eq.1 htag⟩
  refine ⟨r, hr, hkind, hspan, helement, (narrows_iff hr hkind).2 helement fun q hq hslash => ?_⟩
  have hlt := hslash.1.getElem?_eq
  rw [hspan, Span.containsByte_iff] at hq
  have hnone : ∀ q < 11, 8 ≤ q → (octets "<script>f()</script>")[q]? ≠ some '<' := by
    decide +kernel
  exact hnone q hq.2 hq.1 hlt

/-- A script with markup in it, for its name is not in lower case. -/
def upperCaseScript : String := "<SCRIPT><b>x</b></SCRIPT>"

/-- A script with markup in it, for a slash stands behind what looks like its end tag. -/
def slashedScript : String := "<script></script/><b>x</b></script>"

/-- The regions of these scripts are not narrowed: copies of the element inside keep everything. -/
theorem not_narrows_markupInScript :
    (¬ ∀ r ∈ (Markup.Document.ofText upperCaseScript).regions (size upperCaseScript),
      r.kind = .scriptBlock → Narrows upperCaseScript r.span) ∧
    ¬ ∀ r ∈ (Markup.Document.ofText slashedScript).regions (size slashedScript),
      r.kind = .scriptBlock → Narrows slashedScript r.span := by
  have hregion : ∀ text ∈ [upperCaseScript, slashedScript],
      ∃ r ∈ (Markup.Document.ofText text).regions (size text), r.kind = .scriptBlock ∧
        ∃ e ∈ (Markup.Document.ofText text).elements,
          r.span.containsByte e.2.span.start = true ∧ e.2.isTag "script" = false := by
    decide +kernel
  constructor
  · intro hall
    obtain ⟨r, hr, hkind, e, he, hstart, htag⟩ := hregion upperCaseScript (by decide)
    exact not_narrows he hstart htag (hall r hr hkind)
  · intro hall
    obtain ⟨r, hr, hkind, e, he, hstart, htag⟩ := hregion slashedScript (by decide)
    exact not_narrows he hstart htag (hall r hr hkind)

end Repair

end Polyglot
