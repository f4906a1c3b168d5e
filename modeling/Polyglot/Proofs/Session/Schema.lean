import Polyglot.Proofs.Diagnostic.Schema
import Polyglot.Proofs.Projection.Failure
import Polyglot.Proofs.Session.Isolation

/-!
# Complaints about documents

A workspace answers complaints about the literal of a document with spans of the document. The
generator of a document remembers what the texts since it was opened wrote (`Reached.drawn`), so
each answer lies in the current text, but for one case: while the front matter has errors, the
literal shows the last text before without any, and the answer lies in that text
(`schemaDiagnostics_lie`), which may be longer.
-/

namespace Polyglot

open Text

/-! ## Texts -/

namespace Standing

variable {id : String} {rs : List Request} {r : Request}

/-- The texts of a document since it was last opened, after one more call. -/
def textsAfter (texts : List String) : Except StoreError Standing → List String
  | .ok (opened text _) => texts ++ [text]
  | .ok _ => []
  | .error _ => texts

/-- What a call makes of a standing and of the texts. -/
def record (x : Standing × List String) (r : Request) : Standing × List String :=
  (x.1.next r, textsAfter x.2 (x.1.after r))

/-- The texts of a document since it was last opened, the current one last, after calls about any
documents. -/
def textsOf (id : String) (rs : List Request) : List String :=
  ((rs.filter fun r => r.id == id).foldl record (never, [])).2

theorem foldl_record_fst (rs : List Request) (x : Standing × List String) :
    (rs.foldl record x).1 = rs.foldl next x.1 := by
  induction rs generalizing x with
  | nil => rfl
  | cons r rs ih => exact ih (record x r)

theorem textsOf_append_self :
    textsOf r.id (rs ++ [r]) = textsAfter (textsOf r.id rs) ((ofCalls r.id rs).after r) := by
  have hfold := foldl_record_fst (rs.filter fun r' => r'.id == r.id) (never, [])
  unfold textsOf ofCalls
  rw [filter_append_self, List.foldl_concat, record, hfold]

theorem textsOf_append_other (h : r.id ≠ id) : textsOf id (rs ++ [r]) = textsOf id rs := by
  unfold textsOf
  rw [filter_append_other h]

end Standing

/-! ## What generators remember -/

namespace Generator

variable {g next : Generator} {id s : String} {kind : DocumentKind} {collection : Option String}
  {compiler : Compiler} {d : Draft} {texts : List String} {code : Code}

/-- The generator of a content document remembers what was written for the texts, in this order. -/
def Remembers (g : Generator) (kind : DocumentKind) (collection : Option String) (texts : List String) :
    Prop :=
  kind = .content → ∀ c ∈ collection, DataLiteral.Written (texts.map fun s => (s, c)) g.memory

theorem remembers_nil (kind : DocumentKind) (collection : Option String) :
    ({} : Generator).Remembers kind collection [] := fun _ _ _ => .nil

/-- A content document is drawn with what is remembered. -/
theorem ofContent_of_draft (h : g.draft id s .content collection compiler = .ok (d, next)) :
    Draft.ofContent id s collection g.memory = .ok (d, next.memory) := by
  obtain ⟨⟨draft, memory⟩, hcontent, h⟩ := exists_of_bind_eq_ok h
  cases h
  exact hcontent

theorem Remembers.draft (h : g.Remembers kind collection texts)
    (hdraft : g.draft id s kind collection compiler = .ok (d, next)) :
    next.Remembers kind collection (texts ++ [s]) := by
  rintro rfl c hc
  obtain rfl := Option.mem_def.1 hc
  obtain ⟨⟨literal, memory⟩, hwrite, hcontent⟩ := exists_of_bind_eq_ok (ofContent_of_draft hdraft)
  obtain ⟨-, hmemory⟩ := Prod.mk.inj (Except.ok.inj hcontent)
  rw [List.map_append, ← hmemory]
  exact (h rfl c hc).write hwrite

theorem draft_frontMatter (h : g.draft id s kind collection compiler = .ok (d, next)) :
    d.frontMatter = FrontMatter.scan s := by
  cases kind with
  | template =>
    cases h
    rfl
  | content =>
    have hcontent := ofContent_of_draft h
    rcases collection with _ | c
    · obtain ⟨rfl, -⟩ := Prod.mk.inj (Except.ok.inj hcontent)
      rfl
    · obtain ⟨_, _, hcontent⟩ := exists_of_bind_eq_ok hcontent
      obtain ⟨rfl, -⟩ := Prod.mk.inj (Except.ok.inj hcontent)
      rfl

/-- Only a content document in a collection has a literal. -/
theorem exists_collection (h : g.draft id s kind collection compiler = .ok (d, next))
    (hcode : code ∈ d.root :: d.children) (hid : code.id = Draft.literalId id) :
    kind = .content ∧ code ∈ d.children ∧ ∃ c, collection = some c := by
  have hliteral : (Code.make (Draft.literalId id) .typescript "" []).IsAt id .literal := rfl
  have hne {p : Slot} (hp : p ≠ .literal) (hcode : code.IsAt id p) : False :=
    hcode.ne hliteral hp hid
  obtain ⟨language, hroot⟩ := draft_root h
  have hchild : code ∈ d.children := by
    refine (List.mem_cons.1 hcode).resolve_left fun heq => ?_
    exact hne (p := .document) nofun (by rw [heq, hroot]; exact String.append_empty.symm)
  cases kind with
  | template =>
    cases h
    rw [Draft.ofTemplate_eq] at hchild
    rcases List.mem_cons.1 hchild with rfl | hchild
    · exact (hne (p := .typed) nofun (Draft.typedOf_isAt id s _)).elim
    · obtain ⟨p, hp, -, -, hother⟩ := Draft.embedded_isAt hchild
      exact (hne hother.symm hp).elim
  | content =>
    refine ⟨rfl, hchild, ?_⟩
    rcases collection with _ | c
    · obtain ⟨rfl, -⟩ := Prod.mk.inj (Except.ok.inj (ofContent_of_draft h))
      cases hchild
    · exact ⟨c, rfl⟩

end Generator

/-! ## What a literal shows -/

namespace DataLiteral

variable {memory next : Memory} {id s collection : String} {texts : List String} {d : Draft}
  {code : Code} {r q : Span}

/-- The front matter of a text has errors, and `shown` is the last text before it whose front matter
has none. -/
structure ShowsEarlier (texts : List String) (s shown : String) : Prop where
  present : FrontMatter.scan s ≠ .absent
  invalid : ∀ body, ¬ IsValid s body
  last : ∃ before after, texts = before ++ shown :: after ∧ (∃ body, IsValid shown body) ∧
    ∀ t ∈ after, ∀ body, ¬ IsValid t body

/-- A span that the literal of a document carries lies in the text that the literal shows. -/
theorem carried_lies (hcalls : Written (texts.map fun s => (s, collection)) memory)
    (h : Draft.ofContent id s (some collection) memory = .ok (d, next)) (hcode : code ∈ d.children)
    (hid : code.id = Draft.literalId id) (hr : r.start ≤ r.stop)
    (hq : code.map.toSourceSpan? r .diagnostics = some q) :
    q.start ≤ q.stop ∧
      (q.stop ≤ size s ∨ ∃ shown, ShowsEarlier texts s shown ∧ q.stop ≤ size shown) := by
  obtain ⟨p, remembered, hwrite, rfl⟩ := exists_write_of_mem h hcode hid
  obtain ⟨shown, document, body, hholds, htext, hmappings, hshown⟩ := exists_shown hcalls hwrite
  rw [htext, hmappings] at hq
  obtain ⟨htransparent, htokens⟩ := hholds.transparent (Draft.literalId id) collection
  have hstop : q.stop ≤ size shown :=
    htransparent.stop_le (fun m hm => hholds.stop_le (htokens ▸ hm)) hr hq
  refine ⟨(htransparent.of_toSourceSpan? hr hq).1, ?_⟩
  rcases hshown with rfl | ⟨hinvalid, before, c, after, hsplit, hvalid, hafter⟩
  · exact .inl hstop
  · obtain ⟨earlier, rest, rfl, rfl, hrest⟩ := List.map_eq_append_iff.1 hsplit
    obtain ⟨t, later, rfl, ht, rfl⟩ := List.map_eq_cons_iff.1 hrest
    obtain ⟨rfl, rfl⟩ := Prod.mk.inj ht
    refine .inr ⟨t, ⟨fun habsent => ?_, hinvalid, earlier, later, rfl, ?_, fun t ht => ?_⟩, hstop⟩
    · rw [habsent] at hwrite
      cases hwrite
    · exact ⟨body, document, hholds, hvalid⟩
    · exact hafter (t, _) (List.mem_map.2 ⟨t, ht, rfl⟩)

end DataLiteral

/-! ## Workspaces -/

namespace Workspace

variable {w w' : Workspace} {config : Config} {compiler : Compiler} {id : String} {r : Request}
  {rs : List Request} {texts : List String} {y : Standing} {x : Snapshot} {reported : List Diagnostic}
  {made : Option (ProjectionTree × Generator)}

/-- The tree of a document is drawn from the last of its texts, with what the generator remembered
of the texts before; a document without a tree has no texts. -/
def Drawn (w : Workspace) (id : String) (texts : List String) : Prop :=
  match w.tree? id with
  | none => texts = [] ∧ w.generators.get? id = none
  | some tree => ∃ (before : List String) (s : String) (previous next : Generator)
      (compiler : Compiler) (d : Draft) (version : Int) (kind : DocumentKind)
      (last : Option ProjectionTree), texts = before ++ [s] ∧
      previous.Remembers (w.config.kindOf id) (w.config.collectionOf? id) before ∧
      previous.draft id s (w.config.kindOf id) (w.config.collectionOf? id) compiler = .ok (d, next) ∧
      w.generators.get? id = some next ∧ tree = d.tree id version kind last

theorem Drawn.of_eq (h : w.Drawn id texts) (hconfig : w'.config = w.config)
    (htree : w'.tree? id = w.tree? id) (hgenerator : w'.generators.get? id = w.generators.get? id) :
    w'.Drawn id texts := by
  unfold Drawn at h ⊢
  rw [hconfig, htree, hgenerator]
  exact h

/-- What the next tree is drawn with. -/
theorem Drawn.remembers (h : w.Drawn id texts) :
    ((w.generators.get? id).getD {}).Remembers (w.config.kindOf id) (w.config.collectionOf? id)
      texts := by
  unfold Drawn at h
  split at h
  · obtain ⟨rfl, hgenerator⟩ := h
    rw [hgenerator]
    exact Generator.remembers_nil _ _
  · obtain ⟨before, s, previous, next, compiler, d, -, -, -, rfl, hremembers, hdraft, hgenerator, -⟩ := h
    rw [hgenerator]
    exact hremembers.draft hdraft

/-- What a call leaves of its document is drawn from the text it leads to. -/
theorem Drawn.replaced (h : w.Drawn id texts) (hmade : w.made compiler id y = .ok made)
    (hreplaced : Replaced w w' id y made) : w'.Drawn id (Standing.textsAfter texts (.ok y)) := by
  have hnone (hmade : made = none) : w'.Drawn id [] := by
    unfold Drawn
    rw [hreplaced.tree, hreplaced.generator, if_pos rfl, if_pos rfl, hmade]
    exact ⟨rfl, rfl⟩
  cases y with
  | never => exact hnone (Except.ok.inj hmade).symm
  | closed => exact hnone (Except.ok.inj hmade).symm
  | opened text version =>
    obtain ⟨⟨tree, next⟩, hgenerate, rfl⟩ := exists_of_map_eq_ok hmade
    obtain ⟨d, hdraft, htree⟩ := Generator.generate_draft hgenerate
    unfold Drawn
    rw [hreplaced.config, hreplaced.tree, hreplaced.generator, if_pos rfl, if_pos rfl]
    exact ⟨texts, text, _, next, compiler, d, _, _, _, rfl, h.remembers, hdraft, rfl, htree⟩

/-- **Runs.** After any calls the tree of each document is drawn from the last of its texts. -/
theorem Reached.drawn (h : Reached config rs w) (id : String) :
    w.Drawn id (Standing.textsOf id rs) := by
  induction h generalizing id with
  | empty => exact ⟨rfl, rfl⟩
  | @call rs w w' compiler r reply hreached hperform ih =>
    rcases hafter : (w.store.standing r.id).after r with e | y
    · -- A call that is refused leaves the texts as they are, too.
      obtain ⟨rfl, -⟩ := Prod.mk.inj (Except.ok.inj ((perform_refused hafter).symm.trans hperform))
      by_cases heq : r.id = id
      · subst heq
        rw [Standing.textsOf_append_self, ← (hreached.standing r.id).1, hafter]
        exact ih r.id
      · rw [Standing.textsOf_append_other heq]
        exact ih id
    · obtain ⟨made, hmade, -, hreplaced⟩ := exists_made_of_perform hafter hperform
      by_cases heq : r.id = id
      · subst heq
        rw [Standing.textsOf_append_self, ← (hreached.standing r.id).1, hafter]
        exact (ih r.id).replaced hmade hreplaced
      · rw [Standing.textsOf_append_other heq]
        refine (ih id).of_eq hreplaced.config ?_ ?_
        · rw [hreplaced.tree, if_neg heq]
        · rw [hreplaced.generator, if_neg heq]

/-- The tree of an open document is that of its current text. -/
theorem Reached.exists_drawn (h : Reached config rs w) (hopen : w.snapshot? id = some x) :
    ∃ (before : List String) (previous next : Generator) (compiler : Compiler) (d : Draft)
      (version : Int) (kind : DocumentKind) (last : Option ProjectionTree),
      Standing.textsOf id rs = before ++ [x.text] ∧
      previous.Remembers (w.config.kindOf id) (w.config.collectionOf? id) before ∧
      previous.draft id x.text (w.config.kindOf id) (w.config.collectionOf? id) compiler =
        .ok (d, next) ∧
      w.tree? id = some (d.tree id version kind last) := by
  have hconsistent := (h.standing id).2
  unfold Consistent at hconsistent
  rw [hopen] at hconsistent
  obtain ⟨tree, -, htree, -, -, -, htext⟩ := hconsistent
  have hdrawn := h.drawn id
  unfold Drawn at hdrawn
  rw [htree] at hdrawn
  obtain ⟨before, s, previous, next, compiler, d, version, kind, last, htexts, hremembers, hdraft, -, rfl⟩ :=
    hdrawn
  obtain ⟨language, hroot⟩ := Generator.draft_root hdraft
  obtain rfl : s = x.text := (congrArg Code.text hroot).symm.trans htext
  exact ⟨before, previous, next, compiler, d, version, kind, last, htexts, hremembers, hdraft, htree⟩

/-- Complaints about an open document are carried through its literal, in its current text. -/
theorem schemaDiagnostics_eq {g next : Generator} {d : Draft} {s : String} {collection : Option String}
    {version : Int} {kind kind' : DocumentKind} {last : Option ProjectionTree}
    (htree : w.tree? id = some (d.tree id version kind' last))
    (hdraft : g.draft id s kind collection compiler = .ok (d, next)) (reported : List Diagnostic) :
    w.schemaDiagnostics id reported = Diagnostic.reshape reported
      ((d.root :: d.children).find? (·.id == Draft.literalId id)) (FrontMatter.scan s) (size s) := by
  obtain ⟨language, hroot⟩ := Generator.draft_root hdraft
  have htext : d.root.text = s := congrArg Code.text hroot
  unfold schemaDiagnostics
  rw [htree, ← Generator.draft_frontMatter hdraft, ← htext]
  rfl

/-- **Complaints.** In a workspace after any calls, complaints about the literal of an open document
are answered with spans in order that lie in its text. But while its front matter has errors, the
literal shows the last text without any since the document was opened, if there is one, and then
what is carried through the literal lies in that text. -/
theorem schemaDiagnostics_lie (h : Reached config rs w) (hopen : w.snapshot? id = some x)
    (hreported : ∀ d ∈ reported, d.span.start ≤ d.span.stop) :
    ∃ before, Standing.textsOf id rs = before ++ [x.text] ∧
      ∀ e ∈ w.schemaDiagnostics id reported, e.span.start ≤ e.span.stop ∧
        (e.span.stop ≤ size x.text ∨
          e.isMissingProperty = false ∧ ∃ shown, DataLiteral.ShowsEarlier before x.text shown ∧
            e.span.stop ≤ size shown) := by
  obtain ⟨before, previous, next, compiler, d, version, kind, last, htexts, hremembers, hdraft, htree⟩ :=
    h.exists_drawn hopen
  refine ⟨before, htexts, fun e he => ?_⟩
  rw [schemaDiagnostics_eq htree hdraft] at he
  rcases Diagnostic.lies_of_mem_reshape he with hlies | ⟨hmissing, complaint, hmem, code, hfind, hcarried⟩
  · exact ⟨hlies.1, .inl hlies.2⟩
  have hcode := List.mem_of_find?_eq_some hfind
  have hfound := List.find?_some hfind
  have hid : code.id = Draft.literalId id := eq_of_beq hfound
  obtain ⟨hkind, hchild, c, hcollection⟩ := Generator.exists_collection hdraft hcode hid
  rw [hkind, hcollection] at hdraft
  have hcontent := Generator.ofContent_of_draft hdraft
  obtain ⟨hle, hstop⟩ := DataLiteral.carried_lies (hremembers hkind c hcollection) hcontent hchild hid
    (hreported complaint hmem) hcarried
  exact ⟨hle, hstop.imp_right fun hshown => ⟨hmissing, hshown⟩⟩

/-- A document that is opened with a valid block, and then has a shorter one with an error. -/
def shrunkCalls : List Request :=
  [.openDocument "a.md" "---\ndraft\n---\n" 1, .update "a.md" "---\n[" 2]

/-- A complaint about the value in its literal. -/
def valueComplaint : Diagnostic :=
  ⟨⟨58, 65⟩, .error, none, "Type 'string' does not satisfy the expected type.", .schema⟩

theorem schemaDiagnostics_lie_shrunk :
    ∃ w replies x, (empty blogConfig).run failing shrunkCalls = .ok (w, replies) ∧
      Reached blogConfig shrunkCalls w ∧ w.snapshot? "a.md" = some x ∧ x.text = "---\n[" ∧
      (∀ d ∈ [valueComplaint], d.span.start ≤ d.span.stop) ∧
      ∃ before, Standing.textsOf "a.md" shrunkCalls = before ++ [x.text] ∧
        ∀ e ∈ w.schemaDiagnostics "a.md" [valueComplaint], e.span.start ≤ e.span.stop ∧
          (e.span.stop ≤ size x.text ∨
            e.isMissingProperty = false ∧ ∃ shown, DataLiteral.ShowsEarlier before x.text shown ∧
              e.span.stop ≤ size shown) := by
  have hanswers : ((empty blogConfig).run failing shrunkCalls).map (fun p =>
      (p.1.snapshot? "a.md").map (·.text)) = .ok (some "---\n[") := by decide +kernel
  obtain ⟨⟨w, replies⟩, hrun, hanswers⟩ := exists_of_map_eq_ok hanswers
  obtain ⟨x, hopen, htext⟩ := Option.map_eq_some_iff.1 hanswers
  have h : Reached blogConfig shrunkCalls w := Reached.empty.run hrun
  have hreported : ∀ d ∈ [valueComplaint], d.span.start ≤ d.span.stop := by decide
  exact ⟨w, replies, x, hrun, h, hopen, htext, hreported, schemaDiagnostics_lie h hopen hreported⟩

/-- An answer can lie behind the end of the current text, though the complaint lies in the
literal. -/
theorem schemaDiagnostics_past_end :
    ∃ w replies x literal, (empty blogConfig).run failing shrunkCalls = .ok (w, replies) ∧
      Reached blogConfig shrunkCalls w ∧ w.snapshot? "a.md" = some x ∧
      (w.tree? "a.md").bind (·.find? (Draft.literalId "a.md")) = some literal ∧
      valueComplaint.span.start ≤ valueComplaint.span.stop ∧
      valueComplaint.span.stop ≤ size literal.text ∧
      ∃ e ∈ w.schemaDiagnostics "a.md" [valueComplaint], size x.text < e.span.stop := by
  have hanswers : ((empty blogConfig).run failing shrunkCalls).map (fun p =>
      ((p.1.snapshot? "a.md").map (size ·.text),
        ((p.1.tree? "a.md").bind (·.find? (Draft.literalId "a.md"))).map (size ·.text),
        (p.1.schemaDiagnostics "a.md" [valueComplaint]).map (·.span))) =
      .ok (some 5, some 105, [⟨4, 9⟩]) := by decide +kernel
  obtain ⟨⟨w, replies⟩, hrun, hanswers⟩ := exists_of_map_eq_ok hanswers
  obtain ⟨hopen, hanswers⟩ := Prod.mk.inj hanswers
  obtain ⟨hfind, hspans⟩ := Prod.mk.inj hanswers
  obtain ⟨x, hopen, hsize⟩ := Option.map_eq_some_iff.1 hopen
  obtain ⟨literal, hfind, hliteral⟩ := Option.map_eq_some_iff.1 hfind
  obtain ⟨e, he, hspan⟩ : ∃ e ∈ w.schemaDiagnostics "a.md" [valueComplaint], e.span = ⟨4, 9⟩ :=
    List.mem_map.1 (hspans ▸ List.mem_singleton_self _)
  have h : Reached blogConfig shrunkCalls w := Reached.empty.run hrun
  refine ⟨w, replies, x, literal, hrun, h, hopen, hfind, by decide, ?_, e, he, ?_⟩
  · rw [hliteral]
    decide
  · rw [hsize, hspan]
    decide

end Workspace

end Polyglot
