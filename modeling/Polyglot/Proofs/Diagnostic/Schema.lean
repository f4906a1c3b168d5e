import Polyglot.Diagnostic.Schema
import Polyglot.Proofs.Data.Order
import Polyglot.Proofs.FrontMatter
import Polyglot.Proofs.Map.Monotone
import Polyglot.Proofs.Projection.LastValid
import Polyglot.Proofs.Projection.Names

/-!
# Complaints about a literal

A literal shows the block of one text, that of the document or an earlier one
(`DataLiteral.exists_shown`). Its keys and values stand in the literal in the order that they have
in that text, so complaints about the literal are carried back in order, and just those are lost
that point at scaffolding (`DataLiteral.carriesBack`).
-/

namespace Polyglot

open Text

/-- An answer to complaints lies in the document, unless the literal carried it there. -/
theorem Diagnostic.lies_of_mem_reshape {ds : List Diagnostic} {literal : Option Code} {s : String}
    {e : Diagnostic} (he : e ∈ reshape ds literal (FrontMatter.scan s) (size s)) :
    (e.span.start ≤ e.span.stop ∧ e.span.stop ≤ size s) ∨
      e.isMissingProperty = false ∧ ∃ d ∈ ds, ∃ code ∈ literal,
        code.map.toSourceSpan? d.span .diagnostics = some e.span := by
  by_cases habsent : FrontMatter.scan s = .absent
  · rw [habsent] at he
    have hempty : e ∈ if ds.isEmpty then [] else [missingFrontMatter] := he
    split_ifs at hempty
    · cases hempty
    · obtain rfl := List.mem_singleton.1 hempty
      exact .inl ⟨le_rfl, Nat.zero_le _⟩
  · obtain ⟨block, -, hblock, -⟩ := FrontMatter.exists_content habsent
    obtain ⟨r, hspan, hr, hstop, hsize⟩ := FrontMatter.exists_span? hblock
    rw [reshape, hspan] at he
    obtain ⟨d, hd, he⟩ := List.mem_filterMap.1 he
    obtain ⟨span, hsource, rfl⟩ := Option.map_eq_some_iff.1 he
    rw [sourceSpan?] at hsource
    split_ifs at hsource with hmissing
    · obtain rfl := Option.some.inj hsource
      exact .inl ⟨hr, hstop ▸ hsize⟩
    · obtain ⟨code, hcode, hsource⟩ := Option.bind_eq_some_iff.1 hsource
      exact .inr ⟨Bool.eq_false_of_not_eq_true hmissing, d, hd, code, hcode, hsource⟩

/-! ## The order of keys and values -/

namespace Data

variable {s : String} {d : Document}

mutual

theorem Tree.leaves_sublist : ∀ t : Tree, (t.leaves.map (·.scalar.span)).Sublist t.tokens
  | .scalar x => by
    rw [Tree.leaves, Tree.tokens]
    split_ifs
    · exact List.nil_sublist _
    · exact List.Sublist.refl _
  | .mapping _ _ pairs => by
    rw [Tree.leaves, Tree.tokens]
    exact Tree.pairLeaves_sublist pairs
  | .sequence _ _ items => by
    rw [Tree.leaves, Tree.tokens]
    exact Tree.itemLeaves_sublist items

theorem Tree.pairLeaves_sublist : ∀ pairs : List (Scalar × Tree),
    ((Tree.pairLeaves pairs).map (·.scalar.span)).Sublist (Tree.pairTokens pairs)
  | [] => by
    rw [Tree.pairLeaves, Tree.pairTokens]
    exact List.Sublist.refl _
  | (key, value) :: rest => by
    rw [Tree.pairLeaves, Tree.pairTokens, List.map_append, List.map_cons]
    exact ((Tree.leaves_sublist value).cons_cons _).append (Tree.pairLeaves_sublist rest)

theorem Tree.itemLeaves_sublist : ∀ items : List Tree,
    ((Tree.itemLeaves items).map (·.scalar.span)).Sublist (Tree.itemTokens items)
  | [] => by
    rw [Tree.itemLeaves, Tree.itemTokens]
    exact List.Sublist.refl _
  | item :: rest => by
    rw [Tree.itemLeaves, Tree.itemTokens, List.map_append]
    exact (Tree.leaves_sublist item).append (Tree.itemLeaves_sublist rest)

end

/-- The keys and values of a document stand in its text one behind the other. -/
theorem Document.leaves_inOrder (h : Document.ofText s = .ok d) :
    (∀ x ∈ d.leaves, x.scalar.span.start ≤ x.scalar.span.stop) ∧
      d.leaves.Pairwise fun a b => a.scalar.span.stop ≤ b.scalar.span.start := by
  unfold Document.leaves
  rcases hroot : d.root with _ | root
  · exact ⟨nofun, .nil⟩
  · obtain ⟨hbounds, hpairwise⟩ := (Document.ofText_lies h root hroot).inOrder.pairwise
    have hsublist := root.leaves_sublist
    rw [Option.elim_some]
    refine ⟨fun x hx => ?_, List.pairwise_map.1 (hpairwise.sublist hsublist)⟩
    exact (hbounds _ (hsublist.subset (List.mem_map_of_mem hx))).2

theorem Document.leaves_stop_le (h : Document.ofText s = .ok d) :
    ∀ x ∈ d.leaves, x.scalar.span.stop ≤ size s := by
  unfold Document.leaves
  rcases hroot : d.root with _ | root
  · exact nofun
  · have hreads := ofText_reads s
    rw [h] at hreads
    have hspan : root.span ∈ d.spans := by
      rw [Document.spans, hroot]
      exact List.mem_append_left _ root.span_mem_spans
    have hstop := le_size_of_isBoundary (hreads _ hspan).2.2
    intro x hx
    have hmem := root.leaves_sublist.subset (List.mem_map_of_mem hx)
    exact ((Document.ofText_lies h root hroot).inOrder.stop_le _ hmem).trans hstop

end Data

/-! ## The tokens of a literal -/

/-- The mappings that are no anchors. -/
def Code.tokens (c : Code) : List Mapping := c.map.toList.filter fun m => !DataLiteral.isAnchor m

namespace DataLiteral

open Data Piece Mapping

variable {memory next : Memory} {id s collection : String} {body : Body} {document : Document}
  {literal : Option DataLiteral} {p : DataLiteral} {calls : List (String × String)} {d : Draft}
  {code : Code} {ps : List Piece} {i : ℕ}

/-- Complaints are carried through the tokens only. -/
theorem allows_diagnostics {m : Mapping} (h : m ∈ mappingsOf i ps) :
    m.allows .diagnostics = !isAnchor m := by
  induction ps generalizing i with
  | nil => cases h
  | cons p ps ih =>
    rcases List.mem_append.1 h with hp | hps
    · cases p with
      | scaffold t => cases hp
      | token source t =>
        obtain rfl := List.mem_singleton.1 hp
        show Capabilities.allows dataCapabilities .diagnostics = !(dataCapabilities == anchorCapabilities)
        decide
      | anchor source =>
        obtain rfl := List.mem_singleton.1 hp
        show Capabilities.allows anchorCapabilities .diagnostics =
          !(anchorCapabilities == anchorCapabilities)
        decide
    · exact ih hps

/-- The tokens of a literal are its keys and values, in order. -/
theorem Holds.places {f : FrontMatter} (h : Holds f s document body) (collection : String) :
    List.Forall₂ (fun x m => Places (body.text ++ satisfies collection) x.scalar.span x.text m)
      document.leaves (body.mappings.filter fun m => !isAnchor m) := by
  obtain ⟨block, content, -, -, -, rfl⟩ := h
  have hplaces := forall₂_places "" (satisfies collection)
    (bodyPieces (contentLines block content f.isClosed) document.root)
  rw [bodyPieces_tokens, List.forall₂_map_left_iff, String.empty_append] at hplaces
  exact hplaces

/-- They stand for just these spans of the source. -/
theorem Holds.map_source {f : FrontMatter} (h : Holds f s document body) :
    (body.mappings.filter fun m => !isAnchor m).map Mapping.source =
      document.leaves.map (·.scalar.span) := by
  rw [eq_comm, ← List.forall₂_eq_eq_eq, List.forall₂_map_left_iff, List.forall₂_map_right_iff]
  exact (h.places "").imp fun x m hm => hm.source_eq.symm

theorem Holds.exists_leaf {f : FrontMatter} {m : Mapping} (h : Holds f s document body)
    (hm : m ∈ body.mappings.filter fun m => !isAnchor m) :
    ∃ x ∈ document.leaves, x.scalar.span = m.source := by
  have hsource := List.mem_map_of_mem (f := Mapping.source) hm
  rw [h.map_source] at hsource
  exact List.mem_map.1 hsource

theorem Holds.monotone {f : FrontMatter} (h : Holds f s document body) :
    Monotone (body.mappings.filter fun m => !isAnchor m) := by
  have hsources := h.map_source
  have hleaf : ∀ m ∈ body.mappings.filter fun m => !isAnchor m,
      ∃ x ∈ document.leaves, x.scalar.span = m.source := fun m => h.exists_leaf
  obtain ⟨block, content, -, -, hdocument, rfl⟩ := h
  obtain ⟨hle, hordered⟩ := Document.leaves_inOrder hdocument
  have hspaced := (bodyPieces_spaced (contentLines block content f.isClosed) document.root).pairwise 0
  constructor
  case generated_le => exact fun m hm => (bounds_of_mem (List.mem_filter.1 hm).1).2.1
  case source_le =>
    intro m hm
    obtain ⟨x, hx, heq⟩ := hleaf m hm
    exact heq ▸ hle x hx
  case apart => exact hspaced.sublist List.filter_sublist
  case inOrder =>
    rw [← List.pairwise_map (f := Mapping.source) (R := fun a b => a.stop ≤ b.start), hsources]
    exact List.pairwise_map.2 hordered

/-- The tokens lie in the text that they were read from. -/
theorem Holds.stop_le {m : Mapping} (h : Holds (FrontMatter.scan s) s document body)
    (hm : m ∈ body.mappings.filter fun m => !isAnchor m) : m.source.stop ≤ size s := by
  obtain ⟨x, hx, heq⟩ := h.exists_leaf hm
  obtain ⟨block, content, hblock, -, hdocument, -⟩ := h
  obtain ⟨r, -, -, -, hsize⟩ := FrontMatter.exists_span? hblock
  rw [← heq]
  exact (Document.leaves_stop_le hdocument x hx).trans hsize

/-! ## The text that is shown -/

/-- **Shown texts.** A literal shows the block of its document, or, if that has errors, the most
recent valid block before. -/
theorem exists_shown (hcalls : Written calls memory)
    (h : write memory s (FrontMatter.scan s) collection = .ok (some p, next)) :
    ∃ shown document body, Holds (FrontMatter.scan shown) shown document body ∧
      p.text = body.text ++ satisfies collection ∧ p.mappings = body.mappings ∧
      (shown = s ∨ (∀ body, ¬ IsValid s body) ∧ ∃ before c after,
        calls = before ++ (shown, c) :: after ∧ document.isValid = true ∧ NoneValid after) := by
  have hmemory := hcalls.isOf
  rcases write_eq_ok_iff.1 h with ⟨hnone, -, -⟩ | ⟨document, body, shown, stale, hholds, hshows, hp⟩
  · cases hnone
  obtain rfl := Option.some.inj hp
  cases hshows with
  | valid => exact ⟨s, document, body, hholds, rfl, rfl, .inl rfl⟩
  | stale hinvalid hlast =>
    rw [hlast] at hmemory
    obtain ⟨before, call, after, hsplit, ⟨other, hother, hvalid⟩, hafter⟩ := hmemory
    exact ⟨call.1, other, shown, hother, rfl, rfl,
      .inr ⟨fun _ => hholds.not_isValid hinvalid, before, call.2, after, hsplit, hvalid, hafter⟩⟩
  | alone => exact ⟨s, document, body, hholds, rfl, rfl, .inl rfl⟩

/-- The literal among the codes of a document is what is written for it. -/
theorem exists_write_of_mem (h : Draft.ofContent id s (some collection) memory = .ok (d, next))
    (hcode : code ∈ d.children) (hid : code.id = Draft.literalId id) :
    ∃ p remembered, write memory s (FrontMatter.scan s) collection = .ok (some p, remembered) ∧
      code = .make (Draft.literalId id) .typescript p.text p.mappings := by
  obtain ⟨⟨literal, remembered⟩, hwrite, h⟩ := exists_of_bind_eq_ok h
  obtain ⟨rfl, -⟩ := Prod.mk.inj (Except.ok.inj h)
  rcases List.mem_cons.1 hcode with rfl | hcode
  · have hliteral : (Code.make (Draft.literalId id) .typescript "" []).IsAt id .literal := rfl
    exact absurd hid ((Draft.dataCode_isAt id s _ collection).ne hliteral nofun)
  · obtain ⟨p, rfl, rfl⟩ := Option.map_eq_some_iff.1 (Option.mem_toList.1 hcode)
    exact ⟨p, remembered, hwrite, rfl⟩

/-- The complaints about the literal of one of the texts are carried back in order, and only what
points at scaffolding is lost. -/
structure CarriesBack (texts : List String) (code : Code) : Prop where
  /-- The tokens are the keys and values of one of the texts. -/
  shows : ∃ s ∈ texts, ∃ document body, Holds (FrontMatter.scan s) s document body ∧
    List.Forall₂ (fun x m => Places code.text x.scalar.span x.text m) document.leaves code.tokens
  one : ∀ g, (code.tokens.filter (·.generated.contains g)).length ≤ 1
  offsets : ∀ m ∈ code.tokens, ∀ n ∈ code.tokens, ∀ g g', m.generated.contains g = true →
    n.generated.contains g' = true → g ≤ g' →
      ∃ i j, code.map.toSource? g .diagnostics = some i ∧ code.map.toSource? g' .diagnostics = some j ∧
        i ≤ j ∧ m.source.contains i = true ∧ n.source.contains j = true
  /-- A span is lost if and only if one of its ends touches no token. -/
  lost_iff : ∀ r : Span, r.start ≤ r.stop → (code.map.toSourceSpan? r .diagnostics = none ↔
    ¬ Touches code.tokens r.start ∨ ¬ Touches code.tokens r.stop)
  spans : ∀ r q : Span, r.start ≤ r.stop → code.map.toSourceSpan? r .diagnostics = some q →
    q.start ≤ q.stop ∧
      (∀ m ∈ code.tokens, m.generated.contains r.start = true → m.source.contains q.start = true) ∧
      ∀ m ∈ code.tokens, m.generated.contains r.stop = true → m.source.contains q.stop = true
  /-- Each complaint is kept or lost on its own. -/
  complaints : ∀ s, FrontMatter.scan s ≠ .absent → ∃ kept? : Diagnostic → Option Diagnostic,
    (∀ ds, Diagnostic.reshape ds (some code) (FrontMatter.scan s) (size s) = ds.filterMap kept?) ∧
      ∀ d, d.span.start ≤ d.span.stop →
        (kept? d = none ↔ d.isMissingProperty = false ∧
          (¬ Touches code.tokens d.span.start ∨ ¬ Touches code.tokens d.span.stop)) ∧
        ∀ e ∈ kept? d, e.span.start ≤ e.span.stop ∧
          e = { d with span := e.span, severity := .error, origin := .schema }

theorem Holds.laidOut {f : FrontMatter} (h : Holds f s document body) (collection : String) :
    Polyglot.LaidOut body.mappings (size (body.text ++ satisfies collection)) := by
  obtain ⟨block, content, -, -, -, rfl⟩ := h
  refine (Body.ofBlock_laidOut block f content document.root).mono ?_
  rw [size_append]
  exact Nat.le_add_right _ _

/-- What carries complaints: the tokens are all that they go through, and they are monotone. -/
structure Transparent (code : Code) : Prop where
  ascend : Ascend code.map.toList
  filter_eq : code.map.toList.filter (·.allows .diagnostics) = code.tokens
  monotone : Monotone code.tokens

theorem Holds.transparent {f : FrontMatter} (h : Holds f s document body) (id collection : String) :
    Transparent (.make id .typescript (body.text ++ satisfies collection) body.mappings) ∧
      (Code.make id .typescript (body.text ++ satisfies collection) body.mappings).tokens =
        body.mappings.filter fun m => !isAnchor m := by
  have hlaid := h.laidOut collection
  have hlist : (Code.make id .typescript (body.text ++ satisfies collection) body.mappings).map.toList =
      body.mappings := hlaid.toList_ofList
  have htokens : (Code.make id .typescript (body.text ++ satisfies collection) body.mappings).tokens =
      body.mappings.filter fun m => !isAnchor m := by
    rw [Code.tokens, hlist]
  refine ⟨⟨?_, ?_, htokens ▸ h.monotone⟩, htokens⟩
  · rw [hlist]
    exact hlaid.ascend
  · rw [htokens, hlist]
    obtain ⟨block, content, -, -, -, rfl⟩ := h
    exact List.filter_congr fun m hm => allows_diagnostics hm

namespace Transparent

variable {g g' : ℕ} {m n : Mapping} {r q : Span}

theorem toSource?_eq (h : Transparent code) (hm : m ∈ code.tokens)
    (hg : m.generated.contains g = true) :
    code.map.toSource? g .diagnostics = some (m.carried g) := by
  rw [SourceMap.toSource?_eq_firstSource? h.ascend, h.filter_eq]
  exact h.monotone.firstSource?_eq_some_iff.2 ⟨m, hm, hg, rfl⟩

theorem toSourceSpan?_eq (h : Transparent code) (hr : r.start ≤ r.stop) :
    code.map.toSourceSpan? r .diagnostics = span? (firstSource? code.tokens) r := by
  rw [SourceMap.toSourceSpan?_eq_span? h.ascend (h.filter_eq ▸ h.monotone) hr, h.filter_eq]

theorem toSourceSpan?_eq_none_iff (h : Transparent code) (hr : r.start ≤ r.stop) :
    code.map.toSourceSpan? r .diagnostics = none ↔
      ¬ Touches code.tokens r.start ∨ ¬ Touches code.tokens r.stop := by
  rw [h.toSourceSpan?_eq hr, span?_eq_none_iff, not_and_or]

theorem of_toSourceSpan? (h : Transparent code) (hr : r.start ≤ r.stop)
    (hq : code.map.toSourceSpan? r .diagnostics = some q) :
    q.start ≤ q.stop ∧
      (∀ m ∈ code.tokens, m.generated.contains r.start = true → m.source.contains q.start = true) ∧
      ∀ m ∈ code.tokens, m.generated.contains r.stop = true → m.source.contains q.stop = true := by
  rw [h.toSourceSpan?_eq hr, h.monotone.span?_eq_some_iff] at hq
  obtain ⟨m, hm, n, hn, hstart, hstop, rfl⟩ := hq
  refine ⟨h.monotone.carried_le hm hn hstart hstop hr, fun k hk hg => ?_, fun k hk hg => ?_⟩
  · obtain rfl := h.monotone.unique hm hk hstart hg
    exact h.monotone.contains_carried hm r.start
  · obtain rfl := h.monotone.unique hn hk hstop hg
    exact h.monotone.contains_carried hn r.stop

theorem stop_le {k : ℕ} (h : Transparent code) (hbound : ∀ m ∈ code.tokens, m.source.stop ≤ k)
    (hr : r.start ≤ r.stop) (hq : code.map.toSourceSpan? r .diagnostics = some q) : q.stop ≤ k := by
  obtain ⟨m, hm, hg⟩ : Touches code.tokens r.stop := by
    by_contra hstop
    rw [(h.toSourceSpan?_eq_none_iff hr).2 (.inr hstop)] at hq
    cases hq
  have hcontains := (h.of_toSourceSpan? hr hq).2.2 m hm hg
  exact (Span.contains_iff.1 hcontains).2.trans (hbound m hm)

/-- Each complaint about the literal is kept or lost on its own. -/
theorem complaints (h : Transparent code) (hscan : FrontMatter.scan s ≠ .absent) :
    ∃ kept? : Diagnostic → Option Diagnostic,
      (∀ ds, Diagnostic.reshape ds (some code) (FrontMatter.scan s) (size s) = ds.filterMap kept?) ∧
      ∀ d, d.span.start ≤ d.span.stop →
        (kept? d = none ↔ d.isMissingProperty = false ∧
          (¬ Touches code.tokens d.span.start ∨ ¬ Touches code.tokens d.span.stop)) ∧
        ∀ e ∈ kept? d, e.span.start ≤ e.span.stop ∧
          e = { d with span := e.span, severity := .error, origin := .schema } := by
  obtain ⟨block, -, hblock, -⟩ := FrontMatter.exists_content hscan
  obtain ⟨r, hspan, hr, -⟩ := FrontMatter.exists_span? hblock
  refine ⟨fun d => (Diagnostic.sourceSpan? (some code) r d).map fun span =>
    { d with span, severity := .error, origin := .schema }, fun ds => ?_, fun d hd => ?_⟩
  · rw [Diagnostic.reshape, hspan]
  · have hsource : Diagnostic.sourceSpan? (some code) r d =
        if d.isMissingProperty then some r else code.map.toSourceSpan? d.span .diagnostics := rfl
    have hlost := h.toSourceSpan?_eq_none_iff hd
    constructor
    · rw [Option.map_eq_none_iff, hsource, ← hlost]
      rcases d.isMissingProperty with _ | _ <;> simp
    · intro e he
      obtain ⟨span, hspan, rfl⟩ := Option.map_eq_some_iff.1 he
      refine ⟨?_, rfl⟩
      rw [hsource] at hspan
      split_ifs at hspan
      · obtain rfl := Option.some.inj hspan
        exact hr
      · exact (h.of_toSourceSpan? hd hspan).1

end Transparent

/-- **Complaints.** The literal of a document is that of one of its texts so far, and complaints
about it are carried back. -/
theorem carriesBack (hcalls : Written calls memory)
    (h : Draft.ofContent id s (some collection) memory = .ok (d, next)) (hcode : code ∈ d.children)
    (hid : code.id = Draft.literalId id) : CarriesBack (s :: calls.map Prod.fst) code := by
  obtain ⟨p, remembered, hwrite, rfl⟩ := exists_write_of_mem h hcode hid
  obtain ⟨shown, document, body, hholds, htext, hmappings, hshown⟩ := exists_shown hcalls hwrite
  rw [htext, hmappings]
  obtain ⟨htransparent, htokens⟩ := hholds.transparent (Draft.literalId id) collection
  constructor
  case shows =>
    refine ⟨shown, ?_, document, body, hholds, htokens ▸ hholds.places collection⟩
    rcases hshown with rfl | ⟨-, before, c, after, rfl, -⟩
    · exact List.mem_cons_self
    · exact List.mem_cons_of_mem _ (List.mem_map.2 ⟨(shown, c), by simp, rfl⟩)
  case one => exact htransparent.monotone.length_filter_le_one
  case offsets =>
    intro m hm n hn g g' hg hg' hle
    exact ⟨_, _, htransparent.toSource?_eq hm hg, htransparent.toSource?_eq hn hg',
      htransparent.monotone.carried_le hm hn hg hg' hle, htransparent.monotone.contains_carried hm g,
      htransparent.monotone.contains_carried hn g'⟩
  case lost_iff => exact fun r => htransparent.toSourceSpan?_eq_none_iff
  case spans => exact fun r q => htransparent.of_toSourceSpan?
  case complaints => exact fun s => htransparent.complaints

/-- A document whose block breaks after it was valid. -/
def brokenText : String := "---\nb: 'x\n---\n"

theorem carriesBack_stale :
    ∃ d next code, Written [("---\na: 1\n---\n", "blog")] (some editedBody) ∧
      Draft.ofContent "a.md" brokenText (some "docs") (some editedBody) = .ok (d, next) ∧
      code ∈ d.children ∧ code.id = Draft.literalId "a.md" ∧
      code.text = editedBody.text ++ satisfies "docs" ∧
      CarriesBack [brokenText, "---\na: 1\n---\n"] code := by
  have hwrite : write none "---\na: 1\n---\n" (FrontMatter.scan "---\na: 1\n---\n") "blog" =
      .ok (some ⟨editedBody.text ++ satisfies "blog", editedBody.mappings, [], false⟩,
        some editedBody) := by decide +kernel
  have hcalls : Written [("---\na: 1\n---\n", "blog")] (some editedBody) := Written.nil.write hwrite
  have hcode : (Draft.ofContent "a.md" brokenText (some "docs") (some editedBody)).toOption.any
      (fun r => r.1.children.any fun c =>
        c.id == Draft.literalId "a.md" && c.text == editedBody.text ++ satisfies "docs") = true := by
    decide +kernel
  obtain ⟨⟨d, next⟩, hdraft, hcode⟩ := exists_of_any_toOption hcode
  obtain ⟨code, hmem, hcode⟩ := List.any_eq_true.1 hcode
  obtain ⟨hid, htext⟩ := Bool.and_eq_true_iff.1 hcode
  have hid := eq_of_beq hid
  exact ⟨d, next, code, hcalls, hdraft, hmem, hid, eq_of_beq htext,
    carriesBack hcalls hdraft hmem hid⟩

end DataLiteral

end Polyglot
