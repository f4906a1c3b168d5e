import Polyglot.Proofs.Map.Resolve
import Polyglot.Proofs.Markup.Slices
import Polyglot.Proofs.Projection.Layout

/-!
# Embedded codes

Every style block in a known language, every script and every style attribute of a document is projected
once, byte by byte, and each of its offsets comes back from there (`Draft.embedded_carries`). An offset of
a stylesheet that all attributes share belongs to one of them at most, since the values are apart.
-/

namespace Polyglot

open Text

/-! ## Verbatim codes -/

namespace Mapping

variable {m : Mapping} {s generated : String} {o : ℕ}

theorem isVerbatim_iff : m.isVerbatim s generated = true ↔
    ∃ content, m.source.slice? s = some content ∧ m.generated.slice? generated = some content := by
  unfold isVerbatim
  split
  next a b ha hb =>
    rw [beq_iff_eq, ha, hb]
    constructor
    · rintro rfl
      exact ⟨a, rfl, rfl⟩
    · rintro ⟨content, ⟨⟩, ⟨⟩⟩
      rfl
  next hnone =>
    refine iff_of_false nofun ?_
    rintro ⟨content, ha, hb⟩
    exact hnone _ _ ha hb

theorem length_of_isVerbatim (h : m.isVerbatim s generated = true) :
    m.source.length = m.generated.length ∧ m.generated.start ≤ m.generated.stop := by
  obtain ⟨content, hsource, hgenerated⟩ := isVerbatim_iff.1 h
  refine ⟨(Span.length_of_slice? hsource).trans (Span.length_of_slice? hgenerated).symm, ?_⟩
  exact (Span.isSome_slice?_iff.1 (Option.isSome_of_eq_some hgenerated)).1

/-- A verbatim mapping carries an offset over without a cut, and back. -/
theorem exists_toGenerated? (h : m.isVerbatim s generated = true) (ho : m.source.contains o = true) :
    ∃ g, m.toGenerated? o = some g ∧ m.generated.contains g = true ∧ m.toSource? g = some o := by
  obtain ⟨hlength, hle⟩ := length_of_isVerbatim h
  have hbounds := Span.contains_iff.1 ho
  unfold Span.length at hlength
  have hg : m.generated.contains (m.generated.start + (o - m.source.start)) = true := by
    rw [Span.contains_iff]
    omega
  refine ⟨m.generated.start + (o - m.source.start), ?_, hg, ?_⟩
  · unfold toGenerated?
    rw [carry_eq_some ho, Nat.min_eq_left (by unfold Span.length; omega)]
  · unfold toSource?
    rw [carry_eq_some hg, Nat.add_sub_cancel_left, Nat.min_eq_left (by unfold Span.length; omega),
      Nat.add_sub_cancel' hbounds.1]

end Mapping

namespace Code

variable {s : String} {c : Code} {m : Mapping} {o : ℕ} {filter : Capabilities}

/-- All mappings tie slices of the document to the same text, and no two of them touch in the code. -/
structure Verbatim (s : String) (c : Code) : Prop where
  isVerbatim : ∀ m ∈ c.map.toList, m.isVerbatim s c.text = true
  apart : c.map.toList.Pairwise fun a b => a.generated.stop < b.generated.start

theorem Verbatim.ascend (h : c.Verbatim s) : Mapping.Ascend c.map.toList :=
  (List.Pairwise.and_mem.1 h.apart).imp fun {a b} ⟨ha, hb, hlt⟩ => by
    have hle := (Mapping.length_of_isVerbatim (h.isVerbatim a ha)).2
    have hle' := (Mapping.length_of_isVerbatim (h.isVerbatim b hb)).2
    omega

/-- **Round trips.** An offset that some mapping holds comes back, whatever mapping it goes through. -/
theorem Verbatim.toSource?_toGenerated? (h : c.Verbatim s) (hm : m ∈ c.map.toList)
    (hallows : m.allows filter = true) (ho : m.source.contains o = true) :
    (c.map.toGenerated? o filter).bind (c.map.toSource? · filter) = some o := by
  obtain ⟨n, hn⟩ : ∃ n, c.map.toList.find? (fun m => m.allows filter && m.source.contains o) =
      some n := by
    rw [← Option.isSome_iff_exists, List.find?_isSome]
    exact ⟨m, hm, by rw [hallows, ho]; rfl⟩
  have hholds := List.find?_some hn
  rw [Bool.and_eq_true] at hholds
  obtain ⟨hnallows, hno⟩ := hholds
  have hmem := List.mem_of_find?_eq_some hn
  obtain ⟨g, hto, hg, hback⟩ := Mapping.exists_toGenerated? (h.isVerbatim n hmem) hno
  -- No mapping in front of `n` reaches the offset.
  have hscan : Mapping.scanGenerated? c.map.toList g filter = some n := by
    have hapart := h.apart
    obtain ⟨as, bs, hsplit⟩ := List.append_of_mem hmem
    rw [hsplit] at hapart ⊢
    refine Mapping.scanGenerated?_of_split hnallows hg fun a ha _ => ?_
    have hlt := (List.pairwise_append.1 hapart).2.2 a ha n List.mem_cons_self
    have hbounds := Span.contains_iff.1 hg
    rw [Bool.eq_false_iff, ne_eq, Span.contains_iff]
    omega
  rw [SourceMap.toGenerated?_eq_bind, SourceMap.findBySource?, hn, Option.bind_some, hto,
    Option.bind_some, SourceMap.toSource?_eq h.ascend, Mapping.scanSource?_eq_bind, hscan,
    Option.bind_some, hback]

/-- The code shows the source of the mapping `m` as it is, and each offset of it comes back. -/
structure Carries (c : Code) (s : String) (m : Mapping) : Prop where
  text : ∃ content, m.source.slice? s = some content ∧ m.generated.slice? c.text = some content
  back : ∀ o filter, m.source.contains o = true → m.allows filter = true →
    (c.map.toGenerated? o filter).bind (c.map.toSource? · filter) = some o

/-- A code for the block `r` of the document, which has number `index` among those of its kind. -/
structure IsBlock (c : Code) (id s : String) (index : ℕ) (r : Span) : Prop where
  named : c.id = id ++ "." ++ toString index ++ "." ++ c.language.extension
  text : r.slice? s = some c.text
  carries : ∃ m, c.map.toList = [m] ∧ m.source = r ∧ c.Carries s m

theorem Verbatim.carries (h : c.Verbatim s) (hm : m ∈ c.map.toList) : c.Carries s m where
  text := Mapping.isVerbatim_iff.1 (h.isVerbatim m hm)
  back _ _ ho hallows := h.toSource?_toGenerated? hm hallows ho

theorem verbatim_make (id : String) (language : Language) {text : String} {ms : List Mapping}
    (hlist : (SourceMap.ofList ms).toList = ms) (hall : ∀ m ∈ ms, m.isVerbatim s text = true)
    (hapart : ms.Pairwise fun a b => a.generated.stop < b.generated.start) :
    (make id language text ms).map.toList = ms ∧ (make id language text ms).Verbatim s :=
  ⟨hlist, hlist.symm ▸ hall, hlist.symm ▸ hapart⟩

/-- A slice of the document as a code of its own. -/
theorem isBlock_of_slice {id content : String} {index : ℕ} {r : Span} {capabilities : Capabilities}
    {language : Language} (h : r.slice? s = some content) :
    (make (id ++ "." ++ toString index ++ "." ++ language.extension) language content
      [⟨r, .withLength 0 r.length, capabilities⟩]).IsBlock id s index r := by
  have hwhole : (Span.withLength 0 r.length).slice? content = some content := by
    refine Span.slice?_eq_some_iff.2 ⟨"", "", by simp, rfl, ?_⟩
    rw [Span.length_of_slice? h, String.empty_append]
    exact (Nat.zero_add _).symm
  obtain ⟨hlist, hverbatim⟩ := verbatim_make
    (id ++ "." ++ toString index ++ "." ++ language.extension) language
    (List.mergeSort_singleton ⟨r, .withLength 0 r.length, capabilities⟩)
    (List.forall_mem_singleton.2 (Mapping.isVerbatim_iff.2 ⟨content, h, hwhole⟩))
    (List.pairwise_singleton _ _)
  refine ⟨rfl, h, _, hlist, rfl, hverbatim.carries ?_⟩
  rw [hlist]
  exact List.mem_singleton.2 rfl

end Code

/-! ## Blocks -/

/-- Codes that are made of some elements of a list, and of no others. -/
theorem forall₂_filterMap {α β : Type} {f : α → Option β} {p : α → Bool} {R : α → β → Prop}
    {xs : List α} (hsome : ∀ x ∈ xs, p x = true → ∃ y, f x = some y ∧ R x y)
    (hnone : ∀ x ∈ xs, p x = false → f x = none) :
    List.Forall₂ R (xs.filter p) (xs.filterMap f) := by
  induction xs with
  | nil => exact .nil
  | cons x xs ih =>
    obtain ⟨hx, hxs⟩ := List.forall_mem_cons.1 hsome
    obtain ⟨hx', hxs'⟩ := List.forall_mem_cons.1 hnone
    rcases hp : p x with _ | _
    · rw [List.filter_cons_of_neg (by simp [hp]), List.filterMap_cons_none (hx' hp)]
      exact ih hxs hxs'
    · obtain ⟨y, hy, hR⟩ := hx hp
      rw [List.filter_cons_of_pos hp, List.filterMap_cons_some hy]
      exact .cons hR (ih hxs hxs')

variable {id s content : String} {rs : List Markup.Region} {r : Markup.Region} {index : ℕ}
  {language : Language}

namespace Style

/-- The style language of a region is known. -/
def isKnown (s : String) (r : Markup.Region) : Bool := (languageOf? (lang s r)).isSome

theorem exists_blockCode? (id : String) (index : ℕ) (hcontent : r.span.slice? s = some content)
    (hlanguage : languageOf? (lang s r) = some language) :
    ∃ c, blockCode? id s index r = some c ∧ c.IsBlock id s index r.span ∧ c.language = language := by
  unfold blockCode?
  rw [hlanguage, hcontent]
  exact ⟨_, rfl, Code.isBlock_of_slice hcontent, rfl⟩

/-- **Styles.** Each block in a known language has a code, numbered among all blocks. -/
theorem blockCodes_carry (h : ∀ r ∈ rs, ∃ content, r.span.slice? s = some content) :
    List.Forall₂
      (fun x c => c.IsBlock id s x.2 x.1.span ∧ languageOf? (lang s x.1) = some c.language)
      ((rs.filter (·.kind == .styleBlock)).zipIdx.filter fun x => isKnown s x.1)
      (blockCodes id s rs) := by
  refine forall₂_filterMap (fun x hx hknown => ?_) fun x hx hnone => ?_
  · obtain ⟨content, hcontent⟩ := h x.1 (List.mem_filter.1 (List.fst_mem_of_mem_zipIdx hx)).1
    obtain ⟨language, hlanguage⟩ := Option.isSome_iff_exists.1 hknown
    obtain ⟨c, hc, hblock, rfl⟩ := exists_blockCode? id x.2 hcontent hlanguage
    exact ⟨c, hc, hblock, hlanguage⟩
  · show blockCode? id s x.2 x.1 = none
    unfold blockCode?
    rw [Option.not_isSome_iff_eq_none.1 (Bool.eq_false_iff.1 hnone)]
    rfl

end Style

namespace Script

/-- The element of a region holds a script. -/
def isHeld (s : String) (r : Markup.Region) : Bool := r.element.any fun e => holdsScript s e.2

theorem exists_code? (hcontent : r.span.slice? s = some content) (hheld : isHeld s r = true) :
    ∃ c, code? id s index r = some c ∧ c.IsBlock id s index r.span := by
  unfold isHeld at hheld
  unfold code?
  rcases helement : r.element with _ | ⟨i, node⟩ <;> rw [helement] at hheld
  · cases hheld
  · rw [hcontent]
    dsimp only [bind, Option.bind_some]
    rw [if_pos (show holdsScript s node = true from hheld)]
    split_ifs
    · exact ⟨_, rfl, Code.isBlock_of_slice hcontent⟩
    · exact ⟨_, rfl, Code.isBlock_of_slice hcontent⟩

theorem code?_eq_none (h : isHeld s r = false) : code? id s index r = none := by
  unfold isHeld at h
  unfold code?
  rcases helement : r.element with _ | ⟨i, node⟩ <;> rw [helement] at h
  · rfl
  · exact if_neg (Bool.eq_false_iff.1 h)

/-- **Scripts.** Each element that holds a script has a code, numbered among all script elements. -/
theorem codes_carry (h : ∀ r ∈ rs, ∃ content, r.span.slice? s = some content) :
    List.Forall₂ (fun x c => c.IsBlock id s x.2 x.1.span)
      ((rs.filter (·.kind == .scriptBlock)).zipIdx.filter fun x => isHeld s x.1) (codes id s rs) := by
  refine forall₂_filterMap (fun x hx hheld => ?_) fun x hx hnone => code?_eq_none hnone
  obtain ⟨content, hcontent⟩ := h x.1 (List.mem_filter.1 (List.fst_mem_of_mem_zipIdx hx)).1
  exact exists_code? hcontent hheld

end Script

/-! ## Attributes -/

namespace Style

theorem slice?_rule (front value more : String) :
    (Span.withLength (size front + size ruleOpen) (size value)).slice?
      (front ++ (ruleOpen ++ value ++ ruleClose ++ more)) = some value := by
  refine Span.slice?_eq_some_iff.2
    ⟨front ++ ruleOpen, ruleClose ++ more, ?_, size_append front ruleOpen, ?_⟩
  · simp only [String.append_assoc]
  · rw [size_append, size_append]
    rfl

/-- Behind any text, the rules of values that are slices hold each of them once, and apart. -/
theorem rules_carry (h : ∀ r ∈ rs, ∃ content, r.span.slice? s = some content) (front : String) :
    (rules s (size front) rs).2.map (·.source) = rs.map (·.span) ∧
      (∀ m ∈ (rules s (size front) rs).2,
        m.isVerbatim s (front ++ (rules s (size front) rs).1) = true) ∧
      (rules s (size front) rs).2.Pairwise (fun a b => a.generated.stop < b.generated.start) ∧
      ∀ m ∈ (rules s (size front) rs).2, size front < m.generated.start := by
  induction rs generalizing front with
  | nil => exact ⟨rfl, nofun, .nil, nofun⟩
  | cons r rs ih =>
    obtain ⟨⟨value, hvalue⟩, hrs⟩ := List.forall_mem_cons.1 h
    have hlength := Span.length_of_slice? hvalue
    have hopen : 0 < size ruleOpen := by decide
    have hrule : size (ruleOpen ++ value ++ ruleClose) =
        size ruleOpen + size value + size ruleClose := by
      rw [size_append, size_append]
    obtain ⟨hsources, hall, hapart, hbehind⟩ := ih hrs (front ++ (ruleOpen ++ value ++ ruleClose))
    rw [size_append] at hsources hall hapart hbehind
    have hfront (more : String) : front ++ (ruleOpen ++ value ++ ruleClose) ++ more =
        front ++ (ruleOpen ++ value ++ ruleClose ++ more) := String.append_assoc
    rw [hfront] at hall
    rw [rules, hvalue]
    dsimp only
    rw [hlength]
    refine ⟨congrArg (r.span :: ·) hsources, List.forall_mem_cons.2 ⟨?_, hall⟩,
      .cons (fun m hm => ?_) hapart, List.forall_mem_cons.2 ⟨?_, fun m hm => ?_⟩⟩
    · exact Mapping.isVerbatim_iff.2 ⟨value, hvalue, slice?_rule front value _⟩
    · have hlt := hbehind m hm
      simp only [Span.withLength]
      omega
    · simp only [Span.withLength]
      omega
    · have hlt := hbehind m hm
      omega

/-- Two values without any text are apart in the stylesheet that they share. -/
example : (rules "<b style=''/><i style=''/>" 0
    [⟨.styleAttribute, ⟨10, 10⟩, none⟩, ⟨.styleAttribute, ⟨23, 23⟩, none⟩]).2.map (·.generated) =
      [⟨4, 4⟩, ⟨11, 11⟩] := by
  decide +kernel

/-- **Attributes.** All values are in one code, each of them once; without any there is no code. -/
theorem attributeCode?_carries (h : ∀ r ∈ rs, ∃ content, r.span.slice? s = some content) :
    (attributeCode? id s rs = none ↔ rs.filter (·.kind == .styleAttribute) = []) ∧
      ∀ c ∈ attributeCode? id s rs,
        c.map.toList.map (·.source) = (rs.filter (·.kind == .styleAttribute)).map (·.span) ∧
          ∀ m ∈ c.map.toList, c.Carries s m := by
  unfold attributeCode?
  generalize hattributes : rs.filter (·.kind == .styleAttribute) = attributes
  have hslices : ∀ r ∈ attributes, ∃ content, r.span.slice? s = some content := fun r hr =>
    h r (List.mem_filter.1 (hattributes ▸ hr)).1
  obtain ⟨hsources, hall, hapart, -⟩ := rules_carry hslices ""
  have hlist := (rules_laidOut s 0 attributes).1.toList_ofList
  rw [String.empty_append] at hall
  rw [show size "" = 0 from rfl] at hsources hall hapart
  generalize rules s 0 attributes = more at hsources hall hapart hlist ⊢
  obtain ⟨text, ms⟩ := more
  dsimp only at hsources hall hapart hlist ⊢
  have hempty : ms.isEmpty = true ↔ attributes = [] := by
    rw [List.isEmpty_iff, ← List.map_eq_nil_iff, hsources, List.map_eq_nil_iff]
  split_ifs with hms
  · exact ⟨iff_of_true rfl (hempty.1 hms), nofun⟩
  · refine ⟨iff_of_false nofun fun hnil => hms (hempty.2 hnil), ?_⟩
    rintro c ⟨⟩
    obtain ⟨hmake, hverbatim⟩ := Code.verbatim_make (id ++ ".inline.css") .css hlist hall hapart
    exact ⟨hmake.symm ▸ hsources, fun m hm => hverbatim.carries hm⟩

end Style

/-! ## Documents -/

/-- **Embedded codes.** The style blocks in a known language and the elements that hold a script have one
code each, which keeps the number of the block among all of its kind, and the style attributes share one.
What is projected is the text of the region, and its offsets come back from there. -/
theorem Draft.embedded_carries (id s : String) :
    let rs := (Markup.Document.ofText s).regions (size s)
    List.Forall₂
      (fun x c => c.IsBlock id s x.2 x.1.span ∧
        Style.languageOf? (Style.lang s x.1) = some c.language)
      ((rs.filter (·.kind == .styleBlock)).zipIdx.filter fun x => Style.isKnown s x.1)
      (Style.blockCodes id s rs) ∧
    List.Forall₂ (fun x c => c.IsBlock id s x.2 x.1.span)
      ((rs.filter (·.kind == .scriptBlock)).zipIdx.filter fun x => Script.isHeld s x.1)
      (Script.codes id s rs) ∧
    (Style.attributeCode? id s rs = none ↔ rs.filter (·.kind == .styleAttribute) = []) ∧
    ∀ c ∈ Style.attributeCode? id s rs,
      c.map.toList.map (·.source) = (rs.filter (·.kind == .styleAttribute)).map (·.span) ∧
        ∀ m ∈ c.map.toList, c.Carries s m := by
  intro rs
  have hslices : ∀ r ∈ rs, ∃ content, r.span.slice? s = some content := fun r =>
    Markup.exists_slice?_of_mem_regions
  exact ⟨Style.blockCodes_carry hslices, Script.codes_carry hslices,
    Style.attributeCode?_carries hslices⟩

end Polyglot
