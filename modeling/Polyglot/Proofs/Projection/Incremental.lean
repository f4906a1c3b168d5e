import Mathlib.Data.Set.Function
import Polyglot.Proofs.Projection.Layout

/-!
# Incremental generation

A generator remembers the output of the last compilation and the last valid literal. If no two texts of a
session have the same digest, the output that is used is the one the compiler would give now
(`Generator.compile_eq`), and a literal that is not stale does not depend on what is remembered
(`DataLiteral.write_cold`). So all that a session leaves in a tree is the list of its changes
(`Generator.generate_incremental`).
-/

namespace Polyglot

/-! ## Literals -/

/-- A literal that is not stale is written without a memory, too. -/
theorem DataLiteral.write_cold {memory next : Memory} {s collection : String} {f : FrontMatter}
    {literal : Option DataLiteral} (h : write memory s f collection = .ok (literal, next))
    (hfresh : ∀ p ∈ literal, p.stale = false) :
    ∃ coldNext, write none s f collection = .ok (literal, coldNext) := by
  rcases write_eq_ok_iff.1 h with
    ⟨rfl, -, hnone⟩ | ⟨document, body, shown, stale, hholds, hshows, rfl⟩
  · exact ⟨none, write_eq_ok_iff.2 (.inl ⟨rfl, rfl, hnone⟩)⟩
  cases hshows with
  | valid hvalid =>
    exact ⟨_, write_eq_ok_iff.2 (.inr ⟨document, body, body, false, hholds, .valid hvalid, rfl⟩)⟩
  | stale => cases hfresh _ rfl
  | alone hvalid =>
    exact ⟨_, write_eq_ok_iff.2 (.inr ⟨document, body, body, false, hholds, .alone hvalid rfl, rfl⟩)⟩

/-- Codes without a stale literal are projected without a memory, too. -/
theorem Draft.ofContent_cold {id s : String} {collection : Option String}
    {memory next : DataLiteral.Memory} {d : Draft}
    (h : ofContent id s collection memory = .ok (d, next))
    (hfresh : ∀ c ∈ collection, ∀ p remembered,
      DataLiteral.write memory s (FrontMatter.scan s) c = .ok (some p, remembered) → p.stale = false) :
    ∃ coldNext, ofContent id s collection none = .ok (d, coldNext) := by
  unfold ofContent at h ⊢
  rcases collection with _ | c
  · cases h
    exact ⟨none, rfl⟩
  · obtain ⟨⟨literal, remembered⟩, hwrite, h⟩ := exists_of_bind_eq_ok h
    cases h
    obtain ⟨coldNext, hcold⟩ := DataLiteral.write_cold hwrite fun p hp =>
      hfresh c rfl p _ (Option.mem_def.1 hp ▸ hwrite)
    refine ⟨coldNext, ?_⟩
    dsimp only
    rw [hcold]
    rfl

/-! ## Compilations -/

/-- Only the placeholder has no code. -/
theorem Compiler.run_eq_or (compiler : Compiler) (s id : String) :
    compiler.run s id = .placeholder ∨ (compiler.run s id).code.isEmpty = false := by
  unfold Compiler.run
  rcases compiler s id with e | output
  · exact .inl rfl
  · rcases hempty : output.code.isEmpty with _ | _
    · exact .inr (by simp [hempty])
    · exact .inl (by simp [hempty])

/-- A compilation failed if and only if the placeholder stands in for its output. -/
theorem Compiler.isPlaceholder_run_iff (compiler : Compiler) (s id : String) :
    (compiler.run s id).isPlaceholder = true ↔ compiler.run s id = .placeholder := by
  constructor
  · intro h
    refine (compiler.run_eq_or s id).resolve_right fun hcode => ?_
    rw [CompilerOutput.isPlaceholder, hcode] at h
    cases h
  · intro h
    rw [h]
    decide

namespace Generator

variable {g next : Generator} {id s : String} {compiler : Compiler} {last : Option String}
  {output : CompilerOutput}

/-- What is remembered of the compilation of a text: nothing, if it failed. -/
def kept (compiler : Compiler) (id s : String) : Option (UInt64 × CompilerOutput) :=
  if (compiler.run s id).isPlaceholder then none else some (Digest.ofText s, compiler.run s id)

/-- The text compiled last is told from this one by its digest. -/
def Distinguishes (last : Option String) (s : String) : Prop :=
  ∀ before ∈ last, Digest.ofText before = Digest.ofText s → before = s

/-- An output is there for the text compiled last, unless that failed. -/
theorem remembered?_eq_some_iff (hlast : g.lastCompile = last.bind (kept compiler id))
    (hdigest : Distinguishes last s) :
    g.remembered? s = some output ↔
      last = some s ∧ compiler.run s id ≠ .placeholder ∧ output = compiler.run s id := by
  unfold remembered?
  rw [hlast]
  rcases last with _ | before
  · simp
  rw [Option.bind_some, ne_eq, ← Compiler.isPlaceholder_run_iff]
  unfold kept
  by_cases heq : before = s
  · subst heq
    rcases (compiler.run before id).isPlaceholder with _ | _
    · simp [eq_comm]
    · simp
  · have hne : Digest.ofText before ≠ Digest.ofText s := fun h => heq (hdigest before rfl h)
    rcases (compiler.run before id).isPlaceholder with _ | _
    · simp [hne, heq]
    · simp [heq]

/-- **Compilation.** The output is what the compiler gives for the text, and it is remembered unless it is
the placeholder, whether the compiler was called or not. -/
theorem compile_eq (hlast : g.lastCompile = last.bind (kept compiler id))
    (hdigest : Distinguishes last s) :
    g.compile id s compiler = (compiler.run s id, { g with lastCompile := kept compiler id s }) := by
  unfold compile
  rcases hremembered : g.remembered? s with _ | output
  · rfl
  · obtain ⟨rfl, -, rfl⟩ := (remembered?_eq_some_iff hlast hdigest).1 hremembered
    rw [Option.bind_some] at hlast
    rw [← hlast]

/-- The compiler is called for a text other than the last one, and after a failure. -/
theorem compiles_iff (hlast : g.lastCompile = last.bind (kept compiler id))
    (hdigest : Distinguishes last s) :
    g.compiles .template s = true ↔
      ∀ before ∈ last, before ≠ s ∨ compiler.run before id = .placeholder := by
  have hcompiles : g.compiles .template s = true ↔ g.remembered? s = none := by
    simp [compiles]
  rw [hcompiles, Option.eq_none_iff_forall_ne_some]
  simp only [ne_eq, remembered?_eq_some_iff hlast hdigest, not_and]
  constructor
  · rintro h before rfl
    by_cases heq : before = s
    · subst heq
      exact .inr (not_not.1 fun hne => h _ rfl hne rfl)
    · exact .inl heq
  · rintro h output rfl hne -
    exact hne ((h s rfl).resolve_left (not_not.2 rfl))

end Generator

/-! ## Sessions -/

/-- One state of a document, with the collection that it belongs to. -/
structure Edition where
  version : Int
  text : String
  collection : Option String

namespace Generator

/-- The editions of one document, each projected with the tree of the one before as its previous tree; the
generator and the latest tree that they lead to. -/
inductive Session (id : String) (kind : DocumentKind) (compiler : Compiler) :
    List Edition → Generator → Option ProjectionTree → Prop
  | start : Session id kind compiler [] {} none
  | generate {es : List Edition} {e : Edition} {g next : Generator}
      {previous : Option ProjectionTree} {tree : ProjectionTree} :
      Session id kind compiler es g previous →
      g.generate id e.version e.text kind e.collection compiler previous = .ok (tree, next) →
      Session id kind compiler (es ++ [e]) next (some tree)

/-- No two texts of the editions have the same digest. -/
def DigestsDiffer (es : List Edition) : Prop :=
  ∀ a ∈ es, ∀ b ∈ es, Digest.ofText a.text = Digest.ofText b.text → a.text = b.text

/-- The literal that stands for the edition of a content document is that of an earlier block. -/
def IsStale (g : Generator) (kind : DocumentKind) (e : Edition) : Prop :=
  kind = .content ∧ ∃ collection ∈ e.collection, ∃ literal memory,
    DataLiteral.write g.memory e.text (FrontMatter.scan e.text) collection =
      .ok (some literal, memory) ∧ literal.stale = true

variable {g next : Generator} {id : String} {kind : DocumentKind} {compiler : Compiler}
  {es : List Edition} {e : Edition} {previous : Option ProjectionTree} {tree : ProjectionTree}

theorem DigestsDiffer.of_concat (h : DigestsDiffer (es ++ [e])) : DigestsDiffer es :=
  fun a ha b hb => h a (List.mem_append_left _ ha) b (List.mem_append_left _ hb)

theorem DigestsDiffer.distinguishes (h : DigestsDiffer (es ++ [e])) :
    Distinguishes (es.getLast?.map (·.text)) e.text := by
  intro before hbefore
  obtain ⟨a, ha, rfl⟩ := Option.map_eq_some_iff.1 hbefore
  exact h a (List.mem_append_left _ (List.mem_of_getLast? ha)) e (by simp)

/-- **Memory.** In a session of a template the text compiled last is that of the latest edition. -/
theorem Session.lastCompile (h : Session id .template compiler es g previous)
    (hdigest : DigestsDiffer es) :
    g.lastCompile = (es.getLast?.map (·.text)).bind (kept compiler id) := by
  induction h with
  | start => rfl
  | @generate es e g next previous tree _ hgenerate ih =>
    obtain ⟨d, hdraft, -⟩ := generate_draft hgenerate
    have hcompile := compile_eq (ih hdigest.of_concat) hdigest.distinguishes
    obtain rfl : (g.compile id e.text compiler).2 = next := by
      injection hdraft with hdraft
      exact congrArg Prod.snd hdraft
    rw [hcompile, List.getLast?_concat]
    rfl

/-- What a generator drafts for an edition, a new one drafts as well, unless a literal is stale. -/
theorem draft_cold {d : Draft} (hsession : Session id kind compiler es g previous)
    (hdigest : DigestsDiffer (es ++ [e])) (hfresh : ¬ IsStale g kind e)
    (h : g.draft id e.text kind e.collection compiler = .ok (d, next)) :
    ∃ coldNext, draft {} id e.text kind e.collection compiler = .ok (d, coldNext) := by
  cases kind with
  | template =>
    have hwarm := compile_eq (hsession.lastCompile hdigest.of_concat) hdigest.distinguishes
    have hnothing : Distinguishes none e.text := fun _ hbefore => nomatch hbefore
    have hcold : compile {} id e.text compiler = (compiler.run e.text id, _) := compile_eq rfl hnothing
    unfold draft at h ⊢
    rw [hwarm] at h
    cases h
    rw [hcold]
    exact ⟨_, rfl⟩
  | content =>
    obtain ⟨⟨d', memory⟩, hcontent, h⟩ := exists_of_bind_eq_ok h
    cases h
    obtain ⟨coldMemory, hcold⟩ := Draft.ofContent_cold hcontent fun c hc p remembered hwrite => by
      rcases hstale : p.stale with _ | _
      · rfl
      · exact absurd ⟨rfl, c, hc, p, remembered, hwrite, hstale⟩ hfresh
    refine ⟨{ memory := coldMemory }, ?_⟩
    show (Draft.ofContent id e.text e.collection none >>= _) = _
    rw [hcold]
    rfl

/-- The compiler makes no difference to a tree for which it is not called. -/
theorem generate_of_not_compiles (h : g.compiles kind e.text = false) (other : Compiler) :
    g.generate id e.version e.text kind e.collection other previous =
      g.generate id e.version e.text kind e.collection compiler previous := by
  cases kind with
  | template =>
    have hcompile : g.compile id e.text other = g.compile id e.text compiler := by
      rcases hremembered : g.remembered? e.text with _ | output
      · rw [compiles, hremembered] at h
        cases h
      · rw [compile, compile, hremembered]
    unfold generate draft
    dsimp only
    rw [hcompile]
  | content => rfl

theorem compile_of_compiles (h : g.compiles kind s = true) (other : Compiler) :
    (g.compile id s other).1 = other.run s id := by
  have hnone : g.remembered? s = none := Option.isNone_iff_eq_none.1 (Bool.and_eq_true_iff.1 h).2
  rw [compile, hnone]

/-- **Incremental generation.** In a session whose texts have digests of their own, the tree of the next
edition is the one that a new generator makes of it without a previous tree, but for the changes; unless
the literal of a content document is stale. The compiler is called for a template if the text is not that
of the edition before or the compilation of that failed: then its output is used, and otherwise the tree
does not depend on it. -/
theorem generate_incremental (hdigest : DigestsDiffer (es ++ [e]))
    (hsession : Session id kind compiler es g previous)
    (h : g.generate id e.version e.text kind e.collection compiler previous = .ok (tree, next)) :
    (¬ IsStale g kind e → ∃ cold coldNext,
      generate {} id e.version e.text kind e.collection compiler none = .ok (cold, coldNext) ∧
      tree = { cold with changed := tree.changed }) ∧
    (kind = .template →
      (g.compiles kind e.text = true ↔
        ∀ before ∈ es.getLast?,
          before.text ≠ e.text ∨ compiler.run before.text id = .placeholder)) ∧
    ∀ other : Compiler,
      if g.compiles kind e.text then (g.compile id e.text other).1 = other.run e.text id
      else g.generate id e.version e.text kind e.collection other previous = .ok (tree, next) := by
  refine ⟨fun hfresh => ?_, ?_, fun other => ?_⟩
  · obtain ⟨d, hdraft, rfl⟩ := generate_draft h
    obtain ⟨coldNext, hcold⟩ := draft_cold hsession hdigest hfresh hdraft
    refine ⟨d.tree id e.version kind none, coldNext, ?_, rfl⟩
    unfold generate
    rw [hcold]
    rfl
  · rintro rfl
    rw [compiles_iff (hsession.lastCompile hdigest.of_concat) hdigest.distinguishes]
    simp
  · split_ifs with hcompiles
    · exact compile_of_compiles hcompiles other
    · rw [← h]
      exact generate_of_not_compiles (Bool.eq_false_iff.2 hcompiles) other

/-- Gives back what it is given, but for one text. -/
def pickyCompiler : Compiler := fun s _ =>
  if s = "y" then .error .panicked else .ok ⟨s, [], .utf8, []⟩

theorem generate_incremental_repeated :
    ∃ g previous tree next, Session "a" .template pickyCompiler
        [⟨1, "y", none⟩, ⟨2, "x", none⟩] g previous ∧
      g.generate "a" 3 "x" .template none pickyCompiler previous = .ok (tree, next) ∧
      tree.changed = [] ∧ g.compiles .template "x" = false ∧
      (∃ cold coldNext,
        generate {} "a" 3 "x" .template none pickyCompiler none = .ok (cold, coldNext) ∧
        tree = { cold with changed := tree.changed }) ∧
      ∀ other : Compiler, g.generate "a" 3 "x" .template none other previous = .ok (tree, next) := by
  have hsteps : ∃ t₁ g₁ t₂ g₂ t₃ g₃,
      generate {} "a" 1 "y" .template none pickyCompiler none = .ok (t₁, g₁) ∧
      generate g₁ "a" 2 "x" .template none pickyCompiler (some t₁) = .ok (t₂, g₂) ∧
      generate g₂ "a" 3 "x" .template none pickyCompiler (some t₂) = .ok (t₃, g₃) ∧
      t₃.changed = [] ∧ g₂.compiles .template "x" = false :=
    ⟨_, _, _, _, _, _, rfl, rfl, rfl, by decide +kernel, by decide +kernel⟩
  obtain ⟨t₁, g₁, t₂, g₂, t₃, g₃, hfirst, hsecond, hthird, hchanged, hcompiles⟩ := hsteps
  have hsession : Session "a" .template pickyCompiler [⟨1, "y", none⟩, ⟨2, "x", none⟩] g₂ (some t₂) :=
    Session.generate (e := ⟨2, "x", none⟩) (Session.generate (e := ⟨1, "y", none⟩) .start hfirst) hsecond
  have hdigest : DigestsDiffer ([⟨1, "y", none⟩, ⟨2, "x", none⟩] ++ [⟨3, "x", none⟩]) := by
    show ∀ a ∈ _, ∀ b ∈ _, _
    decide +kernel
  obtain ⟨hcold, -, hother⟩ := generate_incremental hdigest hsession hthird
  refine ⟨g₂, some t₂, t₃, g₃, hsession, hthird, hchanged, hcompiles, hcold ?_, fun other => ?_⟩
  · rintro ⟨hkind, -⟩
    cases hkind
  · have h := hother other
    rw [if_neg (by rw [hcompiles]; exact Bool.false_ne_true)] at h
    exact h

end Generator

end Polyglot
