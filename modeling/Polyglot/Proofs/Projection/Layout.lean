import Polyglot.Proofs.Map.Order
import Polyglot.Proofs.Outcome
import Polyglot.Proofs.Projection.DataLiteral
import Polyglot.Projection.Tree

/-!
# Layout of generated codes

In every code of every tree that a generator makes, whatever it was asked before, the generated spans lie
in the text of the code one behind the other; so lookups by generated offset answer as a scan over all
mappings would (`generate_codes`). The five kinds of codes are taken one by one. The literal needs an
invariant of the generator: what it remembers is laid out too (`Generator.Reached.memory`).
-/

namespace Polyglot

open Text

/-! ## One code -/

namespace Code

/-- In the code of the document `s` the catch-all comes last, and no source offset resolves through it
that another mapping allowing the filter holds. -/
def PreciseFirst (s : String) (c : Code) : Prop :=
  ∃ copies, c.map.toList = copies ++ (Repair.catchAll? s c.text copies).toList ∧
    (∀ m ∈ copies, m.capabilities ≠ Repair.catchAllCapabilities) ∧
    ∀ m ∈ copies, ∀ offset filter, m.allows filter = true → m.source.contains offset = true →
      ∃ n ∈ copies, c.map.findBySource? offset filter = some n ∧
        c.map.toGenerated? offset filter = n.toGenerated? offset

/-- What every code of the document `s` satisfies. -/
structure Ordered (s : String) (c : Code) : Prop where
  laidOut : LaidOut c.map.toList (size c.text)
  precise : c.language = .typescriptReact → c.PreciseFirst s

theorem laidOut_make (id : String) (language : Language) {text : String} {ms : List Mapping}
    (h : LaidOut ms (size text)) : LaidOut (make id language text ms).map.toList (size text) := by
  show LaidOut (SourceMap.ofList ms).toList (size text)
  rw [h.toList_ofList]
  exact h

/-- A code whose language is not that of the typed code only has to be laid out. -/
theorem ordered_make (id s : String) {language : Language} (hlanguage : language ≠ .typescriptReact)
    {text : String} {ms : List Mapping} (h : LaidOut ms (size text)) :
    (make id language text ms).Ordered s :=
  ⟨laidOut_make id language h, fun heq => absurd heq hlanguage⟩

/-- A code that is a slice of the document, mapped as a whole. -/
theorem ordered_of_slice {id s content : String} {language : Language} {r : Span}
    {capabilities : Capabilities} (hlanguage : language ≠ .typescriptReact)
    (h : r.slice? s = some content) :
    (make id language content [⟨r, .withLength 0 r.length, capabilities⟩]).Ordered s := by
  refine ordered_make id s hlanguage (.singleton (Nat.zero_le _) ?_)
  rw [← Span.length_of_slice? h]
  exact (Nat.zero_add _).le

end Code

/-! ## Stylesheets -/

namespace Style

variable {id s : String} {index : ℕ} {r : Markup.Region} {rs : List Markup.Region} {c : Code}

theorem languageOf?_ne {name : String} {language : Language} (h : languageOf? name = some language) :
    language ≠ .typescriptReact := by
  unfold languageOf? at h
  dsimp only at h
  split_ifs at h <;> cases h <;> decide

theorem blockCode?_ordered (h : blockCode? id s index r = some c) : c.Ordered s := by
  unfold blockCode? at h
  obtain ⟨language, hlanguage, h⟩ := Option.bind_eq_some_iff.1 h
  obtain ⟨content, hcontent, h⟩ := Option.bind_eq_some_iff.1 h
  obtain rfl := Option.some.inj h
  exact Code.ordered_of_slice (languageOf?_ne hlanguage) hcontent

theorem blockCodes_ordered (h : c ∈ blockCodes id s rs) : c.Ordered s := by
  obtain ⟨x, -, hx⟩ := List.mem_filterMap.1 h
  exact blockCode?_ordered hx

/-- The rule of a value stands behind the rules in front of it. -/
theorem rules_laidOut (s : String) (at_ : ℕ) (rs : List Markup.Region) :
    LaidOut (rules s at_ rs).2 (at_ + size (rules s at_ rs).1) ∧
      ∀ m ∈ (rules s at_ rs).2, at_ ≤ m.generated.start := by
  induction rs generalizing at_ with
  | nil => exact ⟨.nil _, fun _ hm => absurd hm List.not_mem_nil⟩
  | cons r rs ih =>
    rw [rules]
    rcases hvalue : r.span.slice? s with _ | value
    · exact ih at_
    · have hlength := Span.length_of_slice? hvalue
      have hrule : size (ruleOpen ++ value ++ ruleClose) =
          size ruleOpen + size value + size ruleClose := by
        rw [size_append, size_append]
      dsimp only
      generalize ruleOpen ++ value ++ ruleClose = rule at hrule ⊢
      obtain ⟨hlaid, hbehind⟩ := ih (at_ + size rule)
      rw [size_append, ← Nat.add_assoc, ← List.singleton_append]
      constructor
      · refine LaidOut.append (.singleton ?_ ?_) hlaid fun a ha b hb => ?_
        · exact Nat.le_add_right _ _
        · simp only [Span.withLength]
          omega
        · obtain rfl := List.mem_singleton.1 ha
          have hb := hbehind b hb
          simp only [Span.withLength]
          omega
      · intro m hm
        rcases List.mem_append.1 hm with hm | hm
        · obtain rfl := List.mem_singleton.1 hm
          exact Nat.le_add_right _ _
        · have hm := hbehind m hm
          omega

theorem attributeCode?_ordered (h : attributeCode? id s rs = some c) : c.Ordered s := by
  have hlaid := (rules_laidOut s 0 (rs.filter (·.kind == .styleAttribute))).1
  rw [Nat.zero_add] at hlaid
  unfold attributeCode? at h
  dsimp only at h
  split_ifs at h
  obtain rfl := Option.some.inj h
  exact Code.ordered_make _ s (by decide) hlaid

end Style

/-! ## Scripts -/

namespace Script

variable {id s : String} {index : ℕ} {r : Markup.Region} {rs : List Markup.Region} {c : Code}

theorem code?_ordered (h : code? id s index r = some c) : c.Ordered s := by
  unfold code? at h
  obtain ⟨⟨i, node⟩, -, h⟩ := Option.bind_eq_some_iff.1 h
  dsimp only at h
  split_ifs at h
  · obtain ⟨content, hcontent, h⟩ := Option.bind_eq_some_iff.1 h
    obtain rfl := Option.some.inj h
    exact Code.ordered_of_slice (by decide) hcontent
  · obtain ⟨content, hcontent, h⟩ := Option.bind_eq_some_iff.1 h
    obtain rfl := Option.some.inj h
    exact Code.ordered_of_slice (by decide) hcontent

theorem codes_ordered (h : c ∈ codes id s rs) : c.Ordered s := by
  obtain ⟨x, -, hx⟩ := List.mem_filterMap.1 h
  exact code?_ordered hx

end Script

/-! ## Data -/

namespace DataLiteral

theorem Body.ofBlock_laidOut (block : String) (f : FrontMatter) (content : Span)
    (root : Option Data.Tree) :
    LaidOut (Body.ofBlock block f content root).mappings
      (size (Body.ofBlock block f content root).text) := by
  constructor
  case bounds =>
    intro m hm
    obtain ⟨-, hstart, hstop⟩ := Piece.bounds_of_mem hm
    exact ⟨hstart, (Nat.zero_add _).subst (motive := fun n => m.generated.stop ≤ n) hstop⟩
  case apart => exact ((bodyPieces_spaced _ root).pairwise 0).imp Nat.le_of_lt

/-- The literal that is remembered is laid out. -/
def Memory.LaidOut (memory : Memory) : Prop :=
  ∀ body ∈ memory, Polyglot.LaidOut body.mappings (size body.text)

variable {memory next : Memory} {s collection : String} {f : FrontMatter}
  {literal : Option DataLiteral}

/-- A literal is laid out, be it that of the block or the one that was remembered, and so is what is
remembered from then on. -/
theorem write_laidOut (hmemory : memory.LaidOut)
    (h : write memory s f collection = .ok (literal, next)) :
    (∀ p ∈ literal, Polyglot.LaidOut p.mappings (size p.text)) ∧ next.LaidOut := by
  rcases write_eq_ok_iff.1 h with ⟨rfl, rfl, -⟩ | ⟨document, body, shown, stale, hholds, hshows, rfl⟩
  · exact ⟨fun _ hp => absurd hp (Option.not_mem_none _), hmemory⟩
  obtain ⟨block, content, -, -, -, hbody⟩ := hholds
  have hfresh : Polyglot.LaidOut body.mappings (size body.text) := by
    rw [hbody]
    exact Body.ofBlock_laidOut block f content document.root
  have hshown : Polyglot.LaidOut shown.mappings (size shown.text) ∧ next.LaidOut := by
    cases hshows with
    | valid =>
      refine ⟨hfresh, fun last hlast => ?_⟩
      obtain rfl := Option.some.inj hlast
      exact hfresh
    | stale _ hlast => exact ⟨hmemory _ hlast, hmemory⟩
    | alone => exact ⟨hfresh, hmemory⟩
  refine ⟨fun p hp => ?_, hshown.2⟩
  obtain rfl := Option.some.inj hp
  -- The check behind the literal only makes its text longer.
  exact hshown.1.mono (by rw [size_append]; exact Nat.le_add_right _ _)

end DataLiteral

/-! ## The typed code -/

namespace Draft

variable {id s collection : String} {output : CompilerOutput} {markup : Markup.Document} {c : Code}
  {memory next : DataLiteral.Memory} {d : Draft}

theorem preciseFirst_of_mappings {ms : List Mapping} {code : String} {segments : List Segment}
    {unit : ColumnUnit} (h : Repair.mappings s code segments unit markup = .ok ms) :
    (Code.make id .typescriptReact code ms).PreciseFirst s := by
  have hlist : (Code.make id .typescriptReact code ms).map.toList = ms :=
    (Repair.mappings_laidOut h).toList_ofList
  refine ⟨_, hlist.trans (Repair.mappings_eq h), fun m hm heq => ?_,
    fun m hm offset filter hallows hcontains => ?_⟩
  · have hcap := Repair.capabilities_of_mem_copied hm
    rw [heq] at hcap
    exact absurd hcap (by decide)
  · -- The scan stops among the copies, since `m` is one of them.
    have hfind : ((Repair.copied s code segments unit markup).find? fun n =>
        n.allows filter && n.source.contains offset).isSome = true := by
      rw [List.find?_isSome]
      exact ⟨m, hm, by rw [hallows, hcontains]; rfl⟩
    obtain ⟨n, hn⟩ := Option.isSome_iff_exists.1 hfind
    have hanswer : (Code.make id .typescriptReact code ms).map.findBySource? offset filter =
        some n := by
      unfold SourceMap.findBySource?
      rw [hlist, Repair.mappings_eq h, List.find?_append, hn, Option.some_or]
    refine ⟨n, List.mem_of_find?_eq_some hn, hanswer, ?_⟩
    rw [SourceMap.toGenerated?_eq_bind, hanswer, Option.bind_some]

theorem typedCode_ordered (h : typedCode id s output markup = .ok c) : c.Ordered s := by
  unfold typedCode at h
  rcases hms : Repair.mappings s output.code output.segments output.columnUnit markup with e | ms
  · rw [hms] at h
    cases h
  · rw [hms] at h
    obtain rfl := Except.ok.inj h
    exact ⟨Code.laidOut_make _ _ (Repair.mappings_laidOut hms), fun _ => preciseFirst_of_mappings hms⟩

/-- The empty code that stands in for one with unusable segments. -/
theorem emptyCode_ordered (id s : String) : (Code.make id .typescriptReact "" []).Ordered s := by
  have h : Repair.mappings s "" [] .utf8 ⟨.nil, .absent, []⟩ = .ok [] := rfl
  exact ⟨Code.laidOut_make _ _ (.nil _), fun _ => preciseFirst_of_mappings h⟩

/-! ## All codes of a document -/

theorem rootCode_ordered (id s : String) {language : Language} (h : language ≠ .typescriptReact) :
    (rootCode id language s).Ordered s :=
  Code.ordered_make id s h (.singleton (Nat.zero_le _) (Nat.zero_add _).le)

theorem dataCode_ordered (id s : String) (f : FrontMatter) (collection : String) :
    (dataCode id s f collection).Ordered s := by
  unfold dataCode
  generalize (f.blankFences s).getD "" = block
  refine Code.ordered_make _ s (by decide) ?_
  split_ifs
  · exact .nil _
  · exact .singleton (Nat.zero_le _) (Nat.zero_add _).le

theorem ofTemplate_ordered (id s : String) (output : CompilerOutput) :
    ∀ c ∈ (ofTemplate id s output).root :: (ofTemplate id s output).children, c.Ordered s := by
  have htyped : ∀ typed : Code, typed.Ordered s → ∀ rs : List Markup.Region,
      ∀ c ∈ rootCode id .astro s :: typed :: (Style.blockCodes id s rs ++
        (Style.attributeCode? id s rs).toList ++ Script.codes id s rs), c.Ordered s := by
    intro typed htyped rs c hc
    rcases List.mem_cons.1 hc with rfl | hc
    · exact rootCode_ordered id s (by decide)
    rcases List.mem_cons.1 hc with rfl | hc
    · exact htyped
    rcases List.mem_append.1 hc with hc | hc
    · rcases List.mem_append.1 hc with hc | hc
      · exact Style.blockCodes_ordered hc
      · exact Style.attributeCode?_ordered (Option.mem_toList.1 hc)
    · exact Script.codes_ordered hc
  unfold ofTemplate
  dsimp only
  rcases hcode : typedCode id s output (Markup.Document.ofText s) with e | code
  · exact htyped _ (emptyCode_ordered _ s) _
  · exact htyped _ (typedCode_ordered hcode) _

theorem ofContent_ordered {collection : Option String} (hmemory : memory.LaidOut)
    (h : ofContent id s collection memory = .ok (d, next)) :
    (∀ c ∈ d.root :: d.children, c.Ordered s) ∧ next.LaidOut := by
  unfold ofContent at h
  rcases collection with _ | collection
  · cases h
    refine ⟨fun c hc => ?_, hmemory⟩
    obtain rfl := List.mem_singleton.1 hc
    exact rootCode_ordered id s (by decide)
  · obtain ⟨⟨literal, remembered⟩, hwrite, h⟩ := exists_of_bind_eq_ok h
    cases h
    obtain ⟨hliteral, hnext⟩ := DataLiteral.write_laidOut hmemory hwrite
    refine ⟨fun c hc => ?_, hnext⟩
    rcases List.mem_cons.1 hc with rfl | hc
    · exact rootCode_ordered id s (by decide)
    rcases List.mem_cons.1 hc with rfl | hc
    · exact dataCode_ordered id s _ collection
    · obtain ⟨p, hp, rfl⟩ := Option.map_eq_some_iff.1 (Option.mem_toList.1 hc)
      exact Code.ordered_make _ s (by decide) (hliteral p hp)

/-- The tree of a draft, compared with the tree before. -/
def tree (d : Draft) (id : String) (version : Int) (kind : DocumentKind)
    (previous : Option ProjectionTree) : ProjectionTree where
  sourceId := id
  version := version
  kind := kind
  frontMatter := d.frontMatter
  regions := d.regions
  root := d.root
  children := d.children
  diagnostics := d.diagnostics
  changed := d.changedIds previous

end Draft

/-! ## Generators -/

namespace Generator

/-- A generator after any calls, each for any text, outcome of the compiler, collection and tree before. -/
inductive Reached : Generator → Prop
  | fresh : Reached {}
  | generate {g next : Generator} {id : String} {version : Int} {s : String} {kind : DocumentKind}
      {collection : Option String} {compiler : Compiler} {previous : Option ProjectionTree}
      {tree : ProjectionTree} : Reached g →
      g.generate id version s kind collection compiler previous = .ok (tree, next) → Reached next

variable {g next : Generator} {id : String} {version : Int} {s : String} {kind : DocumentKind}
  {collection : Option String} {compiler : Compiler} {previous : Option ProjectionTree}
  {tree : ProjectionTree} {d : Draft}

theorem memory_compile (g : Generator) (id s : String) (compiler : Compiler) :
    (g.compile id s compiler).2.memory = g.memory := by
  unfold compile
  rcases g.remembered? s with _ | output
  · rfl
  · rfl

theorem draft_ordered (hmemory : g.memory.LaidOut)
    (h : g.draft id s kind collection compiler = .ok (d, next)) :
    (∀ c ∈ d.root :: d.children, c.Ordered s) ∧ next.memory.LaidOut := by
  cases kind with
  | template =>
    cases h
    refine ⟨Draft.ofTemplate_ordered id s _, ?_⟩
    show (g.compile id s compiler).2.memory.LaidOut
    rw [memory_compile]
    exact hmemory
  | content =>
    obtain ⟨⟨draft, memory⟩, hcontent, h⟩ := exists_of_bind_eq_ok h
    cases h
    exact Draft.ofContent_ordered hmemory hcontent

/-- The root of a draft is the document itself. -/
theorem draft_root (h : g.draft id s kind collection compiler = .ok (d, next)) :
    ∃ language, d.root = Draft.rootCode id language s := by
  cases kind with
  | template =>
    cases h
    exact ⟨_, rfl⟩
  | content =>
    obtain ⟨⟨draft, memory⟩, hcontent, h⟩ := exists_of_bind_eq_ok h
    cases h
    rcases collection with _ | collection
    · cases hcontent
      exact ⟨_, rfl⟩
    · obtain ⟨_, _, hcontent⟩ := exists_of_bind_eq_ok hcontent
      cases hcontent
      exact ⟨_, rfl⟩

/-- A tree holds what its draft does, compared with the tree before. -/
theorem generate_draft (h : g.generate id version s kind collection compiler previous =
    .ok (tree, next)) :
    ∃ d, g.draft id s kind collection compiler = .ok (d, next) ∧
      tree = d.tree id version kind previous := by
  obtain ⟨⟨d, g'⟩, hdraft, h⟩ := exists_of_bind_eq_ok h
  cases h
  exact ⟨d, hdraft, rfl⟩

/-- **Memory.** Whatever a generator was asked, the literal that it remembers is laid out. -/
theorem Reached.memory (h : Reached g) : g.memory.LaidOut := by
  induction h with
  | fresh => exact fun _ hbody => absurd hbody (Option.not_mem_none _)
  | generate _ hgenerate ih =>
    obtain ⟨d, hdraft, -⟩ := generate_draft hgenerate
    exact (draft_ordered ih hdraft).2

/-- **Layout and lookups.** The mappings of every code that a generator makes are in order of their
generated starts, do not overlap and lie in the text. So each lookup by generated offset answers as a scan
over all of them would, and in typed code no lookup goes through the catch-all past another mapping. -/
theorem generate_codes (hg : Reached g)
    (h : g.generate id version s kind collection compiler previous = .ok (tree, next)) :
    ∀ c ∈ tree.codes,
      c.map.toList.Pairwise (fun a b => a.generated.start ≤ b.generated.start) ∧
      LaidOut c.map.toList (size c.text) ∧
      (∀ offset filter, c.map.findByGenerated? offset filter =
        Mapping.scanGenerated? c.map.toList offset filter) ∧
      (∀ offset filter, c.map.toSource? offset filter =
        Mapping.scanSource? c.map.toList offset filter) ∧
      (∀ r filter, c.map.toSourceSpan? r filter =
        Mapping.scanSourceSpan? c.map.toList r filter) ∧
      (c.language = .typescriptReact → c.PreciseFirst s) := by
  intro c hc
  obtain ⟨d, hdraft, rfl⟩ := generate_draft h
  have hordered := (draft_ordered hg.memory hdraft).1 c hc
  have hascend := hordered.laidOut.ascend
  exact ⟨hascend.imp And.left, hordered.laidOut, SourceMap.findByGenerated?_eq hascend,
    SourceMap.toSource?_eq hascend, SourceMap.toSourceSpan?_eq hascend, hordered.precise⟩

/-- A component with all that is projected, and typed code for its text with a statement behind it. -/
def mixedText : String := "<style>i\x7b\x7d</style><b style='top: 0'>x</b><script>f()</script>"

def mixedOutput : CompilerOutput :=
  ⟨"x;\nexport \x7b\x7d\n", [⟨⟨0, 0⟩, some ⟨0, 37⟩⟩, ⟨⟨0, 1⟩, none⟩], .utf8, []⟩

theorem generate_codes_mixed :
    Reached {} ∧
      ∃ tree next, generate {} "a" 1 mixedText .template none (fun _ _ => .ok mixedOutput) none =
          .ok (tree, next) ∧
        tree.codes.map (·.id) = ["a", "a.tsx", "a.0.css", "a.inline.css", "a.0.ts"] ∧
        ∀ c ∈ tree.codes,
          c.map.toList.Pairwise (fun a b => a.generated.start ≤ b.generated.start) ∧
          LaidOut c.map.toList (size c.text) ∧
          (∀ offset filter, c.map.findByGenerated? offset filter =
            Mapping.scanGenerated? c.map.toList offset filter) ∧
          (∀ offset filter, c.map.toSource? offset filter =
            Mapping.scanSource? c.map.toList offset filter) ∧
          (∀ r filter, c.map.toSourceSpan? r filter =
            Mapping.scanSourceSpan? c.map.toList r filter) ∧
          (c.language = .typescriptReact → c.PreciseFirst mixedText) := by
  have h : ∃ tree next, generate {} "a" 1 mixedText .template none (fun _ _ => .ok mixedOutput)
      none = .ok (tree, next) ∧
      tree.codes.map (·.id) = ["a", "a.tsx", "a.0.css", "a.inline.css", "a.0.ts"] :=
    ⟨_, _, rfl, by decide +kernel⟩
  obtain ⟨tree, next, h, hids⟩ := h
  exact ⟨.fresh, tree, next, h, hids, generate_codes .fresh h⟩

end Generator

end Polyglot
