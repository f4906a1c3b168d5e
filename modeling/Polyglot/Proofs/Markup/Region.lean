import Polyglot.Markup.Region
import Polyglot.Proofs.Markup.Nesting

/-!
# Block regions

The region of a style or a script is the content of its element. The innermost element around an offset of
it is that element, or one that starts in the region (`elementAt?_region`); and none starts there if the
name of the element is spelled like that of a raw text element and no slashed end tag stands in the region
(`not_mem_elements_of_raw`).
-/

namespace Polyglot.Markup

variable {s : String} {r : Region} {e d : ℕ × Node} {o : ℕ}

/-- A region of a kind is the content of an element of that kind. -/
structure Region.IsContent (r : Region) (s : String) (e : ℕ × Node) : Prop where
  mem : e ∈ (Document.ofText s).elements
  element : r.element = some e
  kind : e.2.blockKind? = some r.kind
  startTagEnd : e.2.startTagEnd = some r.span.start
  endTagStart : e.2.endTagStart = some r.span.stop

theorem exists_isContent (h : r ∈ (Document.ofText s).regions (Text.size s))
    (hkind : r.kind = .styleBlock ∨ r.kind = .scriptBlock) : ∃ e, r.IsContent s e := by
  unfold Document.regions at h
  rcases List.mem_append.1 h with h | h
  · rcases List.mem_cons.1 h with rfl | h
    · rcases hkind with hkind | hkind <;> cases hkind
    · obtain ⟨span, -, rfl⟩ := Option.map_eq_some_iff.1 (Option.mem_toList.1 h)
      rcases hkind with hkind | hkind <;> cases hkind
  · obtain ⟨e, he, h⟩ := List.mem_flatMap.1 h
    refine ⟨e, ?_⟩
    rcases List.mem_append.1 h with h | h
    · have hblock := Option.mem_toList.1 h
      unfold blockRegion? at hblock
      obtain ⟨kind, hblockKind, hblock⟩ := Option.bind_eq_some_iff.1 hblock
      obtain ⟨start, hstart, hblock⟩ := Option.bind_eq_some_iff.1 hblock
      obtain ⟨stop, hstop, hblock⟩ := Option.bind_eq_some_iff.1 hblock
      cases hblock
      exact ⟨he, rfl, hblockKind, hstart, hstop⟩
    · have hstyle := Option.mem_toList.1 h
      unfold styleRegion? at hstyle
      obtain ⟨attr, -, hstyle⟩ := Option.bind_eq_some_iff.1 hstyle
      obtain ⟨value, -, hstyle⟩ := Option.bind_eq_some_iff.1 hstyle
      split at hstyle
      all_goals cases hstyle
      all_goals rcases hkind with hkind | hkind <;> cases hkind

theorem Node.isTag_script {n : Node} (h : n.blockKind? = some .scriptBlock) :
    n.isTag "script" = true := by
  unfold blockKind? at h
  split_ifs at h with hstyle hscript
  · cases h
  · exact hscript

namespace Region.IsContent

theorem contentEnd (h : r.IsContent s e) : e.2.contentEnd = r.span.stop := by
  unfold Node.contentEnd
  rw [h.endTagStart]
  rfl

/-- Around an offset of a region the innermost element is that of the region, or one that starts in the
region. -/
theorem elementAt?_region (h : r.IsContent s e) (ho : r.span.containsByte o = true) :
    ∃ d ∈ (Document.ofText s).elements, (Document.ofText s).elementAt? o = some d ∧
      (d = e ∨ r.span.containsByte d.2.span.start = true) := by
  rw [Span.containsByte_iff] at ho
  obtain ⟨d, hd, helement, hor⟩ := (Document.within s).elementAt?_content h.mem h.startTagEnd ho.1
    (h.contentEnd.symm ▸ ho.2)
  refine ⟨d, hd, helement, hor.imp_right fun hstart => ?_⟩
  rw [Span.containsByte_iff]
  omega

/-- No element starts in the content of a raw text element, if no slashed end tag stands there. -/
theorem not_mem_elements_of_raw (h : r.IsContent s e)
    (hraw : isRawTextName e.2.tag.toList = true)
    (hslash : ∀ q, r.span.containsByte q = true → ¬ SlashedEndAt s e.2.tag.toList q) :
    ∀ d ∈ (Document.ofText s).elements, r.span.containsByte d.2.span.start = false := by
  intro d hd
  rw [Bool.eq_false_iff, ne_eq, Span.containsByte_iff]
  rintro ⟨hstart, hstop⟩
  obtain ⟨children, hread, -, -, -, hall⟩ :=
    (Document.within s).exists_children h.mem h.startTagEnd
  obtain ⟨hnode, helement⟩ :=
    Forest.mem_nodes_of_mem_elements (hall d hd hstart (h.contentEnd.symm ▸ hstop))
  rcases hread.raw hraw _ h.startTagEnd _ h.endTagStart with hnone | ⟨q, hq, hlt, hat⟩
  · rw [hnone d.2 hnode] at helement
    cases helement
  · exact hslash q (Span.containsByte_iff.2 ⟨hq, hlt⟩) hat

end Region.IsContent

/-! ## Scripts -/

/-- An element starts in a script if and only if it is one. -/
theorem inScript_start (hd : d ∈ (Document.ofText s).elements) :
    (Document.ofText s).inScript d.2.span.start = d.2.isTag "script" := by
  unfold Document.inScript Document.elementAt?
  rw [(Document.within s).elementAt?_start hd, Option.any_some]

/-- An offset in the region of a script is in a script, unless another element starts in the region. -/
theorem Region.IsContent.inScript (h : r.IsContent s e) (hkind : r.kind = .scriptBlock)
    (hall : ∀ d ∈ (Document.ofText s).elements, r.span.containsByte d.2.span.start = true →
      d.2.isTag "script" = true)
    (ho : r.span.containsByte o = true) : (Document.ofText s).inScript o = true := by
  obtain ⟨d, hd, helement, hor⟩ := h.elementAt?_region ho
  unfold Document.inScript
  rw [helement, Option.any_some]
  rcases hor with rfl | hstart
  · exact Node.isTag_script (h.kind.trans (congrArg some hkind))
  · exact hall d hd hstart

/-- The `<` at which an element starts. -/
theorem octet?_start (hd : d ∈ (Document.ofText s).elements) :
    Text.octet? s d.2.span.start = some '<' := by
  obtain ⟨children, hread⟩ := (Document.within s).exists_of_mem hd
  rw [Text.octet?_eq_octets]
  exact hread.opens (Forest.mem_nodes_of_mem_elements hd).2

end Polyglot.Markup
