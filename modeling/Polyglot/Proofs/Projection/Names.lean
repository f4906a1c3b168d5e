import Mathlib.Data.List.Nodup
import Polyglot.Proofs.Projection.Layout

/-!
# Names of codes

The id of a code is that of its document with a suffix, which tells the place of the code in the tree
(`Slot.id_injective`). The codes of a draft have different places, so their ids differ
(`Generator.nodup_ids`).
-/

namespace Polyglot

theorem Language.extension_injective : Function.Injective extension := by
  intro a b h
  cases a <;> cases b <;> first | rfl | exact absurd h (by decide)

theorem Language.dot_notMem_extension (language : Language) : '.' ∉ language.extension.toList := by
  cases language <;> decide

theorem isDigit_of_mem_toDigits {n : ℕ} {c : Char} (h : c ∈ Nat.toDigits 10 n) : c.isDigit = true :=
  Nat.isDigit_of_mem_toDigits (by decide) (by decide) h

theorem dot_notMem_toDigits (n : ℕ) : '.' ∉ Nat.toDigits 10 n := fun h =>
  absurd (isDigit_of_mem_toDigits h) (by decide)

theorem toDigits_injective : Function.Injective (Nat.toDigits 10) := by
  intro m n h
  rw [← @Nat.ofDigitChars_ten_toDigits m, h, Nat.ofDigitChars_ten_toDigits]

/-! ## Slots -/

/-- The place of a code among those of its document. -/
inductive Slot where
  | document
  | typed
  /-- A style or a script, by its number among the blocks of its kind. -/
  | block (index : ℕ) (language : Language)
  | styleAttributes
  | data (collection : String)
  | literal

namespace Slot

/-- What stands behind the id of the document in that of a code. -/
def suffix : Slot → String
  | document => ""
  | typed => ".tsx"
  | block index language => "." ++ toString index ++ "." ++ language.extension
  | styleAttributes => ".inline.css"
  | data collection => ".yaml_frontmatter_" ++ collection ++ ".yaml"
  | literal => ".frontmatter-ts.ts"

/-- The character behind the first dot of a suffix; zero for all digits. -/
def mark : Slot → Option Char
  | document => none
  | typed => some 't'
  | block .. => some '0'
  | styleAttributes => some 'i'
  | data _ => some 'y'
  | literal => some 'f'

variable {p q : Slot} {i j : ℕ} {a b : Language}

theorem toList_suffix_block (i : ℕ) (a : Language) :
    (block i a).suffix.toList = '.' :: (Nat.toDigits 10 i ++ '.' :: a.extension.toList) := by
  show ("." ++ toString i ++ "." ++ a.extension).toList = _
  rw [String.toList_append, String.toList_append, String.toList_append, Nat.toString_eq_repr,
    Nat.toList_repr, List.append_assoc]
  rfl

theorem mark_eq (p : Slot) :
    p.mark = (p.suffix.toList[1]?).map fun c => if c.isDigit then '0' else c := by
  cases p with
  | block i a =>
    rw [toList_suffix_block]
    rcases hdigits : Nat.toDigits 10 i with _ | ⟨c, cs⟩
    · exact absurd hdigits Nat.toDigits_ne_nil
    · have hc : c.isDigit = true := isDigit_of_mem_toDigits (hdigits ▸ List.mem_cons_self)
      show _ = some (if c.isDigit then '0' else c)
      rw [if_pos hc]
      rfl
  | data collection =>
    show _ = (((".yaml_frontmatter_" ++ collection ++ ".yaml").toList)[1]?).map _
    rw [String.toList_append, String.toList_append]
    rfl
  | _ => rfl

theorem block_inj (h : (block i a).suffix = (block j b).suffix) : i = j ∧ a = b := by
  have hlist := congrArg String.toList h
  rw [toList_suffix_block, toList_suffix_block, List.cons_inj_right,
    List.append_cons_inj_of_notMem (dot_notMem_toDigits i) a.dot_notMem_extension] at hlist
  exact ⟨toDigits_injective hlist.1,
    Language.extension_injective (String.toList_injective hlist.2.2)⟩

theorem suffix_injective : Function.Injective suffix := by
  intro p q h
  have hmark : p.mark = q.mark := by rw [mark_eq, mark_eq, h]
  cases p with
  | document => cases q with
    | document => rfl
    | _ => cases hmark
  | typed => cases q with
    | typed => rfl
    | _ => cases hmark
  | block i a => cases q with
    | block j b =>
      obtain ⟨rfl, rfl⟩ := block_inj h
      rfl
    | _ => cases hmark
  | styleAttributes => cases q with
    | styleAttributes => rfl
    | _ => cases hmark
  | data c => cases q with
    | data d => rw [(String.append_right_inj _).1 ((String.append_left_inj _).1 h)]
    | _ => cases hmark
  | literal => cases q with
    | literal => rfl
    | _ => cases hmark

/-- The id of the code in a place. -/
def id (document : String) (p : Slot) : String := document ++ p.suffix

theorem id_injective (document : String) : Function.Injective (Slot.id document) := fun _ _ h =>
  suffix_injective ((String.append_right_inj document).1 h)

end Slot

/-! ## Codes in their places -/

/-- The code stands in this place of the document. -/
def Code.IsAt (document : String) (c : Code) (p : Slot) : Prop := c.id = p.id document

variable {document s : String} {r : Markup.Region} {rs : List Markup.Region} {a b c : Code}
  {p q : Slot} {i : ℕ}

theorem Code.IsAt.ne (ha : a.IsAt document p) (hb : b.IsAt document q) (h : p ≠ q) : a.id ≠ b.id :=
  fun heq => h (Slot.id_injective document (ha.symm.trans (heq.trans hb)))

theorem id_block (document : String) (i : ℕ) (language : Language) :
    document ++ "." ++ toString i ++ "." ++ language.extension = (Slot.block i language).id document := by
  show _ = document ++ ("." ++ toString i ++ "." ++ language.extension)
  rw [← String.append_assoc, ← String.append_assoc, ← String.append_assoc]

/-- Codes that are numbered by their regions have different ids. -/
theorem pairwise_numbered (code? : ℕ → Markup.Region → Option Code)
    (h : ∀ i r c, code? i r = some c → c.IsAt document (.block i c.language))
    (rs : List Markup.Region) :
    ((rs.zipIdx).filterMap fun (r, i) => code? i r).Pairwise fun a b => a.id ≠ b.id := by
  have hindices : rs.zipIdx.Pairwise fun x y => x.2 ≠ y.2 := by
    rw [← List.pairwise_map, List.zipIdx_map_snd]
    exact List.nodup_range'
  refine List.pairwise_filterMap.2 (hindices.imp fun hxy a ha b hb => ?_)
  refine (h _ _ _ ha).ne (h _ _ _ hb) fun heq => ?_
  injection heq with hindex
  exact hxy hindex

/-! ### Styles -/

theorem Style.blockCode?_isAt (h : blockCode? document s i r = some c) :
    c.IsAt document (.block i c.language) ∧ c.language ∈ [.css, .scss, .less] := by
  unfold blockCode? at h
  obtain ⟨language, hlanguage, h⟩ := Option.bind_eq_some_iff.1 h
  obtain ⟨content, -, h⟩ := Option.bind_eq_some_iff.1 h
  obtain rfl := Option.some.inj h
  refine ⟨id_block document i language, ?_⟩
  unfold languageOf? at hlanguage
  dsimp only at hlanguage
  split_ifs at hlanguage <;> cases hlanguage <;> simp [Code.make]

theorem Style.exists_isAt (h : c ∈ blockCodes document s rs) :
    ∃ i language, c.IsAt document (.block i language) ∧ language ∈ [.css, .scss, .less] := by
  obtain ⟨x, -, hx⟩ := List.mem_filterMap.1 h
  exact ⟨_, _, blockCode?_isAt hx⟩

theorem Style.blockCodes_pairwise (document s : String) (rs : List Markup.Region) :
    (blockCodes document s rs).Pairwise fun a b => a.id ≠ b.id := by
  unfold blockCodes
  exact pairwise_numbered (blockCode? document s) (fun _ _ _ h => (blockCode?_isAt h).1) _

theorem Style.attributeCode?_isAt (h : attributeCode? document s rs = some c) :
    c.IsAt document .styleAttributes := by
  unfold attributeCode? at h
  dsimp only at h
  split_ifs at h
  obtain rfl := Option.some.inj h
  rfl

/-- A document has one code for its style attributes at most. -/
theorem Style.attributeCode?_pairwise (document s : String) (rs : List Markup.Region) :
    (attributeCode? document s rs).toList.Pairwise fun a b => a.id ≠ b.id := by
  rcases attributeCode? document s rs with _ | c
  · exact .nil
  · exact List.pairwise_singleton _ c

/-! ### Scripts -/

theorem Script.code?_isAt (h : code? document s i r = some c) :
    c.IsAt document (.block i c.language) ∧ c.language ∈ [.javascript, .typescript] := by
  unfold code? at h
  obtain ⟨⟨n, node⟩, -, h⟩ := Option.bind_eq_some_iff.1 h
  dsimp only at h
  split_ifs at h
  · obtain ⟨content, -, h⟩ := Option.bind_eq_some_iff.1 h
    obtain rfl := Option.some.inj h
    exact ⟨id_block document i .javascript, by simp [Code.make]⟩
  · obtain ⟨content, -, h⟩ := Option.bind_eq_some_iff.1 h
    obtain rfl := Option.some.inj h
    exact ⟨id_block document i .typescript, by simp [Code.make]⟩

theorem Script.exists_isAt (h : c ∈ codes document s rs) :
    ∃ i language, c.IsAt document (.block i language) ∧ language ∈ [.javascript, .typescript] := by
  obtain ⟨x, -, hx⟩ := List.mem_filterMap.1 h
  exact ⟨_, _, code?_isAt hx⟩

theorem Script.codes_pairwise (document s : String) (rs : List Markup.Region) :
    (codes document s rs).Pairwise fun a b => a.id ≠ b.id := by
  unfold codes
  exact pairwise_numbered (code? document s) (fun _ _ _ h => (code?_isAt h).1) _

/-! ## All codes of a document -/

namespace Draft

variable {collection : Option String} {memory next : DataLiteral.Memory} {d : Draft}

/-- The styles and scripts of a template. -/
def embedded (document s : String) (rs : List Markup.Region) : List Code :=
  Style.blockCodes document s rs ++ (Style.attributeCode? document s rs).toList ++
    Script.codes document s rs

theorem embedded_isAt (h : c ∈ embedded document s rs) :
    ∃ p, c.IsAt document p ∧ .document ≠ p ∧ .typed ≠ p ∧ .literal ≠ p := by
  rcases List.mem_append.1 h with h | h
  · rcases List.mem_append.1 h with h | h
    · obtain ⟨i, language, hc, -⟩ := Style.exists_isAt h
      exact ⟨_, hc, nofun, nofun, nofun⟩
    · exact ⟨_, Style.attributeCode?_isAt (Option.mem_toList.1 h), nofun, nofun, nofun⟩
  · obtain ⟨i, language, hc, -⟩ := Script.exists_isAt h
    exact ⟨_, hc, nofun, nofun, nofun⟩

theorem embedded_pairwise (document s : String) (rs : List Markup.Region) :
    (embedded document s rs).Pairwise fun a b => a.id ≠ b.id := by
  refine List.pairwise_append.2 ⟨List.pairwise_append.2 ⟨Style.blockCodes_pairwise document s rs,
    Style.attributeCode?_pairwise document s rs, ?_⟩, Script.codes_pairwise document s rs, ?_⟩
  · intro a ha b hb
    obtain ⟨i, language, ha, -⟩ := Style.exists_isAt ha
    exact ha.ne (Style.attributeCode?_isAt (Option.mem_toList.1 hb)) nofun
  · intro a ha b hb
    obtain ⟨j, other, hb, hother⟩ := Script.exists_isAt hb
    rcases List.mem_append.1 ha with ha | ha
    · obtain ⟨i, language, ha, hlanguage⟩ := Style.exists_isAt ha
      refine ha.ne hb fun heq => ?_
      -- No language is that of a style and that of a script.
      injection heq with _ heq
      subst heq
      revert hlanguage hother
      cases language <;> decide
    · exact (Style.attributeCode?_isAt (Option.mem_toList.1 ha)).ne hb nofun

/-- The ids of all codes, that of the root first. -/
def ids (d : Draft) : List String := (d.root :: d.children).map (·.id)

theorem ofTemplate_nodup (document s : String) (output : CompilerOutput) :
    (ofTemplate document s output).ids.Nodup := by
  have htyped : ∀ typed : Code, typed.IsAt document .typed → ∀ rs : List Markup.Region,
      ((rootCode document .astro s :: typed :: embedded document s rs).map (·.id)).Nodup := by
    intro typed htyped rs
    have hroot : (rootCode document .astro s).IsAt document .document := String.append_empty.symm
    refine List.pairwise_map.2 (.cons ?_ (.cons ?_ (embedded_pairwise document s rs)))
    · intro c hc
      rcases List.mem_cons.1 hc with rfl | hc
      · exact hroot.ne htyped nofun
      · obtain ⟨p, hc, hp, -⟩ := embedded_isAt hc
        exact hroot.ne hc hp
    · intro c hc
      obtain ⟨p, hc, -, hp, -⟩ := embedded_isAt hc
      exact htyped.ne hc hp
  unfold ofTemplate
  dsimp only
  rcases hcode : typedCode document s output (Markup.Document.ofText s) with e | code
  · exact htyped (.make (document ++ ".tsx") .typescriptReact "" []) rfl _
  · refine htyped _ ?_ _
    obtain ⟨ms, -, hcode⟩ := exists_of_bind_eq_ok hcode
    cases hcode
    rfl

theorem dataCode_isAt (document s : String) (f : FrontMatter) (collection : String) :
    (dataCode document s f collection).IsAt document (.data collection) := by
  show document ++ ".yaml_frontmatter_" ++ collection ++ ".yaml" =
    document ++ (".yaml_frontmatter_" ++ collection ++ ".yaml")
  rw [← String.append_assoc, ← String.append_assoc]

theorem ofContent_nodup (h : ofContent document s collection memory = .ok (d, next)) :
    d.ids.Nodup := by
  have hroot : (rootCode document .markdown s).IsAt document .document := String.append_empty.symm
  unfold ofContent at h
  rcases collection with _ | collection
  · cases h
    exact List.nodup_singleton _
  obtain ⟨⟨literal, remembered⟩, -, h⟩ := exists_of_bind_eq_ok h
  cases h
  have hdata := dataCode_isAt document s (FrontMatter.scan s) collection
  have hliteral : ∀ c ∈ (literal.map fun l =>
      Code.make (literalId document) .typescript l.text l.mappings).toList,
      c.IsAt document .literal := by
    intro c hc
    obtain ⟨l, -, rfl⟩ := Option.map_eq_some_iff.1 (Option.mem_toList.1 hc)
    rfl
  refine List.pairwise_map.2 (.cons ?_ (.cons ?_ ?_))
  · intro c hc
    rcases List.mem_cons.1 hc with rfl | hc
    · exact hroot.ne hdata nofun
    · exact hroot.ne (hliteral c hc) nofun
  · exact fun c hc => hdata.ne (hliteral c hc) nofun
  · rcases literal with _ | l
    · exact .nil
    · exact List.pairwise_singleton _ _

end Draft

/-- The ids of all codes. -/
def ProjectionTree.ids (t : ProjectionTree) : List String := t.codes.map (·.id)

namespace Generator

variable {g next : Generator} {version : Int} {kind : DocumentKind} {collection : Option String}
  {compiler : Compiler} {previous : Option ProjectionTree} {tree : ProjectionTree}

/-- **Names.** The codes of a tree have ids of their own. -/
theorem nodup_ids
    (h : g.generate document version s kind collection compiler previous = .ok (tree, next)) :
    tree.ids.Nodup := by
  obtain ⟨d, hdraft, rfl⟩ := generate_draft h
  cases kind with
  | template =>
    cases hdraft
    exact Draft.ofTemplate_nodup document s _
  | content =>
    obtain ⟨⟨draft, memory⟩, hcontent, hdraft⟩ := exists_of_bind_eq_ok hdraft
    cases hdraft
    exact Draft.ofContent_nodup hcontent

/-- The root has the id of the document. -/
theorem root_id
    (h : g.generate document version s kind collection compiler previous = .ok (tree, next)) :
    tree.root.id = document := by
  obtain ⟨d, hdraft, rfl⟩ := generate_draft h
  obtain ⟨language, hroot⟩ := draft_root hdraft
  exact congrArg Code.id hroot

end Generator

end Polyglot
