import Polyglot.Proofs.Map.Unordered
import Polyglot.Proofs.Projection.Incremental
import Polyglot.Proofs.Projection.Names

/-!
# Failed compilations

A compiler fails with an error, without code, or with segments that go back in its code. Each
failure ends in an empty typed code and the same diagnostic (`Draft.typedOf_of_fails`). The compiler
has no part in the other codes, so the trees of two compilers only differ in their typed codes
(`Generator.generate_contained`).
-/

namespace Polyglot

/-! ## Failures -/

namespace Repair

variable {text generated : String} {segments : List Segment} {unit : ColumnUnit}
  {markup : Markup.Document}

/-- Two neighbouring segments stand in the wrong order in the generated code. -/
def Descends (f : Segment → Located) (segments : List Segment) : Prop :=
  ∃ i a b, segments[i]? = some a ∧ segments[i + 1]? = some b ∧ (f b).generated < (f a).generated

theorem descends_iff : Descends (place text generated unit) segments ↔
    ∃ i a b, GoesBack (generatedOffsets generated unit segments) i a b := by
  unfold GoesBack generatedOffsets
  simp only [List.getElem?_map, Option.map_eq_some_iff]
  constructor
  · rintro ⟨i, a, b, ha, hb, hlt⟩
    exact ⟨i + 1, _, _, i.succ_pos, ⟨a, ha, rfl⟩, ⟨b, hb, rfl⟩, hlt⟩
  · rintro ⟨i, _, _, hi, ⟨a, ha, rfl⟩, ⟨b, hb, rfl⟩, hlt⟩
    exact ⟨i - 1, a, b, ha, by rwa [Nat.sub_add_cancel hi], hlt⟩

/-- Code cannot be mapped if and only if its segments go back. -/
theorem exists_mappings_eq_error_iff : (∃ e, mappings text generated segments unit markup = .error e) ↔
    Descends (place text generated unit) segments :=
  exists_refused_iff.trans descends_iff.symm

end Repair

/-- The compiler has nothing to show for a text. -/
inductive Compiler.Fails (compiler : Compiler) (id s : String) : Prop where
  | error (e : CompilerError) (h : compiler s id = .error e)
  | empty (output : CompilerOutput) (h : compiler s id = .ok output) (hcode : output.code = "")
  | unordered (output : CompilerOutput) (h : compiler s id = .ok output)
    (hdescends : Repair.Descends (Repair.place s output.code output.columnUnit) output.segments)

variable {compiler : Compiler} {id s : String} {output : CompilerOutput}

/-- Without an error and with code, the output is used as it is. -/
theorem Compiler.run_of_ok (h : compiler s id = .ok output) (hcode : output.code ≠ "") :
    compiler.run s id = output := by
  rw [run, h]
  exact if_neg (by simpa using hcode)

/-! ## The typed code -/

theorem Style.language_of_attributeCode? {rs : List Markup.Region} {c : Code}
    (h : attributeCode? id s rs = some c) : c.language = .css := by
  unfold attributeCode? at h
  dsimp only at h
  split_ifs at h
  obtain rfl := Option.some.inj h
  rfl

namespace Draft

/-- The typed code of a template with this output, and all diagnostics. -/
def typedOf (id s : String) (output : CompilerOutput) : Code × List Diagnostic :=
  match typedCode id s output (Markup.Document.ofText s) with
  | .ok code => (code, output.diagnostics)
  | .error _ =>
    (.make (id ++ ".tsx") .typescriptReact "" [],
      output.diagnostics ++ CompilerOutput.placeholder.diagnostics)

/-- The output of the compiler has a part in the typed code and in the diagnostics only. -/
theorem ofTemplate_eq (id s : String) (output : CompilerOutput) :
    ofTemplate id s output =
      let markup := Markup.Document.ofText s
      let regions := markup.regions (Text.size s)
      { root := rootCode id .astro s
        children := (typedOf id s output).1 :: embedded id s regions
        frontMatter := markup.frontMatter
        regions
        diagnostics := (typedOf id s output).2 } :=
  rfl

theorem typedOf_isAt (id s : String) (output : CompilerOutput) :
    (typedOf id s output).1.IsAt id .typed := by
  unfold typedOf
  rcases hcode : typedCode id s output (Markup.Document.ofText s) with e | code
  · rfl
  · obtain ⟨ms, -, hcode⟩ := exists_of_bind_eq_ok hcode
    cases hcode
    rfl

theorem typedOf_placeholder (id s : String) :
    typedOf id s .placeholder =
      (.make (id ++ ".tsx") .typescriptReact "" [], CompilerOutput.placeholder.diagnostics) :=
  rfl

/-- The code with its map, if the segments do not go back. -/
theorem typedOf_of_ok {ms : List Mapping}
    (h : Repair.mappings s output.code output.segments output.columnUnit (Markup.Document.ofText s) =
      .ok ms) :
    typedOf id s output = (.make (id ++ ".tsx") .typescriptReact output.code ms, output.diagnostics) := by
  rw [typedOf, typedCode, h]
  rfl

theorem typedOf_of_error {e : UnorderedSegments}
    (h : Repair.mappings s output.code output.segments output.columnUnit (Markup.Document.ofText s) =
      .error e) :
    typedOf id s output = (.make (id ++ ".tsx") .typescriptReact "" [],
      output.diagnostics ++ CompilerOutput.placeholder.diagnostics) := by
  rw [typedOf, typedCode, h]
  rfl

/-- **Failure.** Whatever the failure is, the typed code is empty, and the diagnostic of the
placeholder is there. -/
theorem typedOf_of_fails (h : compiler.Fails id s) :
    (typedOf id s (compiler.run s id)).1 = .make (id ++ ".tsx") .typescriptReact "" [] ∧
      CompilerOutput.placeholder.diagnostics ⊆ (typedOf id s (compiler.run s id)).2 := by
  have hempty (hrun : compiler.run s id = .placeholder) :
      (typedOf id s (compiler.run s id)).1 = .make (id ++ ".tsx") .typescriptReact "" [] ∧
        CompilerOutput.placeholder.diagnostics ⊆ (typedOf id s (compiler.run s id)).2 := by
    rw [hrun, typedOf_placeholder]
    exact ⟨rfl, List.Subset.refl _⟩
  cases h with
  | error e h => exact hempty (by rw [Compiler.run, h])
  | empty output h hcode =>
    refine hempty ?_
    rw [Compiler.run, h]
    exact if_pos (by simpa using hcode)
  | unordered output h hdescends =>
    by_cases hcode : output.code = ""
    · refine hempty ?_
      rw [Compiler.run, h]
      exact if_pos (by simpa using hcode)
    · obtain ⟨e, he⟩ := Repair.exists_mappings_eq_error_iff.2 hdescends
      rw [Compiler.run_of_ok h hcode, typedOf_of_error he]
      exact ⟨rfl, List.subset_append_right _ _⟩

/-- **Success.** The typed code shows the code of the compiler, which is not empty. -/
theorem typedOf_of_not_fails (h : ¬ compiler.Fails id s) :
    ∃ output ms, compiler s id = .ok output ∧ output.code ≠ "" ∧
      typedOf id s (compiler.run s id) =
        (.make (id ++ ".tsx") .typescriptReact output.code ms, output.diagnostics) := by
  rcases hrun : compiler s id with e | output
  · exact absurd (.error e hrun) h
  have hcode : output.code ≠ "" := fun hcode => h (.empty output hrun hcode)
  rcases hms : Repair.mappings s output.code output.segments output.columnUnit
      (Markup.Document.ofText s) with e | ms
  · exact absurd (.unordered output hrun (Repair.exists_mappings_eq_error_iff.1 ⟨e, hms⟩)) h
  · exact ⟨output, ms, rfl, hcode, by rw [Compiler.run_of_ok hrun hcode, typedOf_of_ok hms]⟩

/-- No style and no script is typed code. -/
theorem language_of_mem_embedded {rs : List Markup.Region} {c : Code} (h : c ∈ embedded id s rs) :
    c.language ≠ .typescriptReact := by
  have hne {languages : List Language} (hc : c.language ∈ languages)
      (hlanguages : .typescriptReact ∉ languages) : c.language ≠ .typescriptReact := fun heq =>
    hlanguages (heq ▸ hc)
  rcases List.mem_append.1 h with h | h
  · rcases List.mem_append.1 h with h | h
    · obtain ⟨x, -, hx⟩ := List.mem_filterMap.1 h
      exact hne (Style.blockCode?_isAt hx).2 (by decide)
    · refine hne (List.mem_singleton.2 (Style.language_of_attributeCode? (Option.mem_toList.1 h))) ?_
      decide
  · obtain ⟨x, -, hx⟩ := List.mem_filterMap.1 h
    exact hne (Script.code?_isAt hx).2 (by decide)

end Draft

/-! ## Trees -/

/-- `typed` is the one typed code of the tree, in front of the `others`. It is empty if and only if
the compiler failed; then the tree says so. -/
structure ProjectionTree.HoldsTyped (t : ProjectionTree) (compiler : Compiler) (id s : String)
    (typed : Code) (others : List Code) : Prop where
  children : t.children = typed :: others
  named : typed.id = id ++ ".tsx"
  one : t.codes.filter (·.language = .typescriptReact) = [typed]
  text_eq_empty_iff : typed.text = "" ↔ compiler.Fails id s
  unmapped : compiler.Fails id s → typed.map.toList = []
  reported : compiler.Fails id s →
    ∃ d ∈ t.diagnostics, d.severity = .error ∧ d.code = some 1000 ∧ d.span = .emptyAt 0

/-- One typed code stands in a draft, whatever the compiler returned. -/
theorem Draft.exists_typedOf (compiler : Compiler) (id s : String) :
    ∃ text ms, (typedOf id s (compiler.run s id)).1 = .make (id ++ ".tsx") .typescriptReact text ms ∧
      (text = "" ↔ compiler.Fails id s) ∧ (compiler.Fails id s → ms = []) := by
  by_cases h : compiler.Fails id s
  · exact ⟨"", [], (typedOf_of_fails h).1, iff_of_true rfl h, fun _ => rfl⟩
  · obtain ⟨output, ms, -, hcode, htyped⟩ := typedOf_of_not_fails h
    exact ⟨output.code, ms, congrArg Prod.fst htyped, iff_of_false hcode h, fun hfails => absurd hfails h⟩

namespace Generator

/-- The first tree of a template: the compiler decides on its typed code and on its diagnostics. -/
theorem exists_generate_template (compiler : Compiler) (id : String) (version : ℤ) (s : String)
    (collection : Option String) (previous : Option ProjectionTree) :
    ∃ t g typed,
      Generator.generate {} id version s .template collection compiler previous = .ok (t, g) ∧
      t.root = Draft.rootCode id .astro s ∧
      t.regions = (Markup.Document.ofText s).regions (Text.size s) ∧
      t.frontMatter = (Markup.Document.ofText s).frontMatter ∧
      t.HoldsTyped compiler id s typed
        (Draft.embedded id s ((Markup.Document.ofText s).regions (Text.size s))) := by
  obtain ⟨text, ms, htyped, htext, hms⟩ := Draft.exists_typedOf compiler id s
  refine ⟨_, _, (Draft.typedOf id s (compiler.run s id)).1, rfl, rfl, rfl, rfl, ?_⟩
  constructor
  case children => rfl
  case named =>
    rw [htyped]
    rfl
  case one =>
    have hothers : (Draft.embedded id s ((Markup.Document.ofText s).regions (Text.size s))).filter
        (·.language = .typescriptReact) = [] :=
      List.filter_eq_nil_iff.2 fun c hc => by simpa using Draft.language_of_mem_embedded hc
    show (Draft.rootCode id .astro s :: (Draft.typedOf id s (compiler.run s id)).1 ::
      Draft.embedded id s _).filter _ = _
    rw [List.filter_cons_of_neg (by simp [Draft.rootCode, Code.make]),
      List.filter_cons_of_pos (by simp [htyped, Code.make]), hothers]
  case text_eq_empty_iff =>
    rw [htyped]
    exact htext
  case unmapped =>
    intro h
    rw [htyped, hms h]
    exact (LaidOut.nil 0).toList_ofList
  case reported =>
    intro h
    exact ⟨_, (Draft.typedOf_of_fails h).2 (List.mem_singleton.2 rfl), rfl, rfl, rfl⟩

/-- **Containment.** With any two compilers the first trees of a template are there, and they agree
on all but the typed code, which is empty, unmapped and reported if and only if its compiler
failed. -/
theorem generate_contained (id s : String) (compiler₁ compiler₂ : Compiler) (version₁ version₂ : ℤ)
    (collection₁ collection₂ : Option String) (previous₁ previous₂ : Option ProjectionTree) :
    ∃ t₁ g₁ typed₁ t₂ g₂ typed₂ others,
      Generator.generate {} id version₁ s .template collection₁ compiler₁ previous₁ = .ok (t₁, g₁) ∧
      Generator.generate {} id version₂ s .template collection₂ compiler₂ previous₂ = .ok (t₂, g₂) ∧
      t₁.root = t₂.root ∧ t₁.regions = t₂.regions ∧ t₁.frontMatter = t₂.frontMatter ∧
      t₁.HoldsTyped compiler₁ id s typed₁ others ∧ t₂.HoldsTyped compiler₂ id s typed₂ others := by
  obtain ⟨t₁, g₁, typed₁, h₁, hroot₁, hregions₁, hfront₁, hholds₁⟩ :=
    exists_generate_template compiler₁ id version₁ s collection₁ previous₁
  obtain ⟨t₂, g₂, typed₂, h₂, hroot₂, hregions₂, hfront₂, hholds₂⟩ :=
    exists_generate_template compiler₂ id version₂ s collection₂ previous₂
  exact ⟨t₁, g₁, typed₁, t₂, g₂, typed₂, _, h₁, h₂, hroot₁.trans hroot₂.symm,
    hregions₁.trans hregions₂.symm, hfront₁.trans hfront₂.symm, hholds₁, hholds₂⟩

end Generator

end Polyglot
