import Polyglot.Proofs.Text.Stretch
import Polyglot.Proofs.Markup.Origin
import Polyglot.Proofs.Markup.Scanning

/-!
# Reading written markup back

The tokens of a well-formed source build the forest that it stands for, under whatever is open
(`Source.foldl_tokens`): behind its children an element is the innermost open one, so its end tag closes it
and nothing else. A source that is written out reads as its forest, without an error, and the spans of the
nodes cut out of the text what they were written as (`Document.ofText_written`).
-/

namespace Polyglot.Markup

open Text

variable {s : String} {a : Assembly} {i j : ℕ} {n : Node} {f : Forest} {as : List SourceAttribute}

/-! ## Complete siblings -/

/-- The roots with their children. -/
def Forest.trees : Forest → List (Node × Forest)
  | nil => []
  | cons node children rest => (node, children) :: rest.trees

theorem Forest.prependReversed_trees (f : Forest) (earlier : List (Node × Forest)) :
    prependReversed (f.trees.reverse ++ earlier) .nil = prependReversed earlier f := by
  induction f generalizing earlier with
  | nil => rfl
  | cons node children rest _ ih =>
    rw [trees, List.reverse_cons, List.append_assoc, ih]
    rfl

theorem spelling_of_stretch {t : String} (h : Stretch s i (octets t)) :
    spelling s (.withLength i (size t)) = t := by
  rw [spelling, h.slice?]
  rfl

namespace Assembly

/-- Adds complete siblings under the innermost open element. -/
def attachForest (a : Assembly) : Forest → Assembly
  | .nil => a
  | .cons node children rest => (a.attach node children).attachForest rest

theorem attachForest_of_nil (h : a.stack = []) (f : Forest) :
    a.attachForest f = { a with roots := f.trees.reverse ++ a.roots } := by
  induction f generalizing a with
  | nil => rfl
  | cons node children rest _ ih =>
    have hattach : a.attach node children = { a with roots := (node, children) :: a.roots } := by
      rw [attach, h]
    rw [attachForest, ih (by rw [hattach, h]), hattach, Forest.trees, List.reverse_cons,
      List.append_assoc]
    rfl

theorem attachForest_of_cons {top : OpenElement} {stack : List OpenElement} (h : a.stack = top :: stack)
    (f : Forest) : a.attachForest f =
      { a with stack := { top with children := f.trees.reverse ++ top.children } :: stack } := by
  induction f generalizing a top with
  | nil =>
    rw [attachForest, Forest.trees, List.reverse_nil, List.nil_append, ← h]
  | cons node children rest _ ih =>
    have hattach : a.attach node children =
        { a with stack := { top with children := (node, children) :: top.children } :: stack } := by
      rw [attach, h]
    rw [attachForest, hattach, ih rfl, Forest.trees, List.reverse_cons, List.append_assoc]
    rfl

/-! ## Start tags -/

/-- The element that begins is this one. -/
def begin (a : Assembly) (n : Node) : Assembly := { a with starting := some n }

theorem foldl_attribute (x : SourceAttribute) (h : Stretch s i (octets x.written)) (a : Assembly)
    (n : Node) : (x.tokens i).foldl (step s) (a.begin n) =
      a.begin { n with attributes := n.attributes ++ [x.place i] } := by
  obtain ⟨name, value⟩ := x
  have hname : spelling s (.withLength (i + 1) (size name)) = name := spelling_of_stretch h.left.right
  have hbare : step s (a.begin n) (.attributeName (.withLength (i + 1) (size name))) =
      a.begin { n with attributes := n.attributes ++
        [⟨name, .withLength (i + 1) (size name), none⟩] } := by
    show a.begin { n with attributes := n.attributes ++ [⟨spelling s _, _, none⟩] } = _
    rw [hname]
  cases value with
  | none => exact hbare
  | some v =>
    show step s (step s (a.begin n) (.attributeName _)) (.attributeValue _ _) = _
    rw [hbare]
    show a.begin { n with attributes := (n.attributes ++ [_]).modify _ _ } = _
    rw [AttributesFit.modify_last]
    rfl

theorem foldl_attributes (h : Stretch s i (octets (writtenAttributes as))) (a : Assembly) (n : Node) :
    (attributeTokens as i).foldl (step s) (a.begin n) =
      a.begin { n with attributes := n.attributes ++ placeAttributes as i } := by
  induction as generalizing i n with
  | nil =>
    rw [placeAttributes, List.append_nil]
    rfl
  | cons x as ih =>
    rw [attributeTokens, List.foldl_append, foldl_attribute x h.left, ih h.right, placeAttributes,
      List.append_assoc]
    rfl

end Assembly

theorem SourceTag.stretch_attributes {t : SourceTag} (h : Stretch s i (octets t.written)) :
    Stretch s (i + 1 + size t.name) (octets (writtenAttributes t.attributes)) := by
  have hright := h.right
  rwa [size_append, ← Nat.add_assoc] at hright

/-- The element whose tag stands at offset `i`, before the tag has ended. -/
def SourceTag.begun (t : SourceTag) (i : ℕ) : Node where
  kind := .element
  span := ⟨i, i + 1 + size t.name⟩
  tag := t.name
  attributes := placeAttributes t.attributes (i + 1 + size t.name)

namespace Assembly

theorem foldl_tag {t : SourceTag} (hstarting : a.starting = none) (h : Stretch s i (octets t.written)) :
    (t.tokens i).foldl (step s) a = a.begin (t.begun i) := by
  have hname : spelling s (.withLength (i + 1) (size t.name)) = t.name :=
    spelling_of_stretch h.left.right
  have hopen : step s a (.openName (.withLength (i + 1) (size t.name))) =
      a.begin { t.begun i with attributes := [] } := by
    have hsettle : a.settle id = a := by rw [settle, hstarting]
    show (a.settle id).begin { kind := .element, span := ⟨i, _⟩, tag := spelling s _ } = _
    rw [hsettle, hname]
    rfl
  rw [SourceTag.tokens, List.foldl_cons, hopen, foldl_attributes (t.stretch_attributes h)]
  rfl

/-- The end of the tag of an element without content. -/
theorem step_loneEnd {t : SourceTag} {selfCloses : Bool} (hstarting : a.starting = none)
    (hvoid : selfCloses = false → t.name ∈ voidElements) (i j : ℕ) :
    step s (a.begin (t.begun i)) (if selfCloses then .selfClose (j + 2) else .openEnd j) =
      a.attach (t.place i (j + size (loneEnd selfCloses)) none (j + size (loneEnd selfCloses))) .nil := by
  have hsettle (g : Node → Node) : (a.begin (t.begun i)).settle g = a.attach (g (t.begun i)) .nil := by
    show attach { a with starting := none } _ _ = _
    rw [← hstarting]
  cases selfCloses with
  | false =>
    have hcontains : voidElements.contains t.name = true := List.contains_iff_mem.2 (hvoid rfl)
    exact (if_pos hcontains).trans (hsettle _)
  | true => exact hsettle _

/-- The element is open, without children yet. -/
def push (a : Assembly) (n : Node) : Assembly := { a with stack := ⟨n, []⟩ :: a.stack }

theorem step_openEnd {t : SourceTag} (hstarting : a.starting = none) (hvoid : t.name ∉ voidElements)
    (i j : ℕ) : step s (a.begin (t.begun i)) (.openEnd j) =
      a.push (t.place i (j + 1) none (j + 1)) := by
  have hcontains : ¬ voidElements.contains t.name = true := fun h =>
    hvoid (List.contains_iff_mem.1 h)
  refine (if_neg hcontains).trans ?_
  show push { a with starting := none } _ = _
  rw [← hstarting]
  rfl

/-- An end tag of the innermost open element closes that one, whatever else is open. -/
theorem step_closeTag {e : OpenElement} {stack : List OpenElement} {r : Span}
    (hstack : a.stack = e :: stack) (hname : spelling s r = e.node.tag) (start stop : ℕ) :
    step s a (.closeTag start r stop) = attach { a with stack }
      { e.node with endTagStart := some start, span.stop := min (stop + 1) (size s) }
      (.prependReversed e.children .nil) := by
  have hmatching : a.matching? e.node.tag = some 0 := by
    rw [matching?, hstack, List.findIdx?_cons, beq_self_eq_true]
    rfl
  rw [step]
  simp only [hname, hmatching, abandon, close, hstack]

/-- Behind its children an element is closed by its end tag. -/
theorem step_endTag {t : SourceTag} {stop : ℕ} (h : Stretch s j (octets t.writtenEnd))
    (a : Assembly) (i : ℕ) (children : Forest) :
    step s ((a.push (t.place i stop none stop)).attachForest children)
        (.closeTag j (.withLength (j + 2) (size t.name)) (j + 2 + size t.name)) =
      a.attach (t.place i stop (some j) (j + size t.writtenEnd)) children := by
  have hname : spelling s (.withLength (j + 2) (size t.name)) = t.name :=
    spelling_of_stretch h.left.right
  have hsize : j + 2 + size t.name + 1 = j + size t.writtenEnd := by
    rw [SourceTag.writtenEnd, size_append, size_append]
    show _ = j + (2 + _ + 1)
    omega
  have hle : j + size t.writtenEnd ≤ size s := by
    have hstop := le_size_of_isBoundary h.stop
    rwa [length_octets] at hstop
  rw [attachForest_of_cons rfl, step_closeTag rfl hname, hsize, Nat.min_eq_left hle,
    Forest.prependReversed_trees]
  rfl

end Assembly

theorem SourceLeaf.WellFormed.size_pos {x : SourceLeaf} (h : x.WellFormed) : 0 < size x.written := by
  rw [← length_octets, List.length_pos_iff]
  cases x with
  | text t => exact octets_ne_nil h.1
  | comment body => simp [octets_comment]
  | expression code => simp [octets_expression]

theorem SourceLeaf.step_token {x : SourceLeaf} (h : x.WellFormed) (a : Assembly) (i : ℕ) :
    Assembly.step s a (x.token (.withLength i (size x.written))) =
      a.attach ⟨x.kind, .withLength i (size x.written), "", none, none, []⟩ .nil := by
  have hpos := h.size_pos
  have hlt : i < i + size x.written := by omega
  cases x <;> exact if_pos hlt

namespace Source

variable {m children : Source} {tag : SourceTag}

theorem stretch_lone {selfCloses : Bool} (h : Stretch s i (octets (lone selfCloses tag m).written)) :
    Stretch s i (octets tag.written) ∧
      Stretch s (i + size tag.written + size (loneEnd selfCloses)) (octets m.written) := by
  have hrest := h.right
  rw [size_append, ← Nat.add_assoc] at hrest
  exact ⟨h.left.left, hrest⟩

theorem stretch_element (h : Stretch s i (octets (element tag children m).written)) :
    Stretch s i (octets tag.written) ∧
      Stretch s (i + size tag.written + 1) (octets children.written) ∧
      Stretch s (i + size tag.written + 1 + size children.written) (octets tag.writtenEnd) ∧
      Stretch s (i + size tag.written + 1 + size children.written + size tag.writtenEnd)
        (octets m.written) := by
  have hgt : size ">" = 1 := rfl
  have hinner := h.left.left.right
  have hend := h.left.right
  have hrest := h.right
  simp only [size_append, ← Nat.add_assoc, hgt] at hinner hend hrest
  exact ⟨h.left.left.left.left, hinner, hend, hrest⟩

/-- The tokens of a source build its forest, under whatever is open. -/
theorem foldl_tokens (hm : m.WellFormed) (hstarting : a.starting = none)
    (h : Stretch s i (octets m.written)) :
    (m.tokens i).foldl (Assembly.step s) a = a.attachForest (m.forest i) := by
  induction m generalizing a i with
  | nil => rfl
  | leaf x m ih =>
    obtain ⟨hx, -, hm⟩ := hm
    rw [Source.tokens, List.foldl_cons, x.step_token hx, ih hm _ h.right]
    · rfl
    · rwa [Assembly.starting_attach]
  | lone selfCloses tag m ih =>
    obtain ⟨htag, hvoid, hm⟩ := hm
    obtain ⟨hstart, hrest⟩ := stretch_lone h
    rw [Source.tokens, List.foldl_append, List.foldl_cons, Assembly.foldl_tag hstarting hstart,
      Assembly.step_loneEnd hstarting hvoid, ih hm _ hrest]
    · rfl
    · rwa [Assembly.starting_attach]
  | element tag children m ihc ihr =>
    obtain ⟨htag, hvoid, -, hchildren, hm⟩ := hm
    obtain ⟨hstart, hinner, hend, hrest⟩ := stretch_element h
    rw [Source.tokens]
    simp only [List.foldl_append, List.foldl_cons]
    rw [Assembly.foldl_tag hstarting hstart, Assembly.step_openEnd hstarting hvoid,
      ihc (a := a.push _) hchildren hstarting hinner, Assembly.step_endTag hend, ihr hm _ hrest]
    · rfl
    · rwa [Assembly.starting_attach]

end Source

/-! ## What the nodes say -/

theorem SourceAttribute.staticValue?_place {x : SourceAttribute} (h : Stretch s i (octets x.written)) :
    (x.place i).staticValue? s = x.value := by
  obtain ⟨name, _ | v⟩ := x
  · rfl
  · have hv := h.right.left.right
    rw [size_append, ← Nat.add_assoc] at hv
    exact hv.slice?

theorem map_placeAttributes (h : Stretch s i (octets (writtenAttributes as))) :
    (placeAttributes as i).map (fun a => ⟨a.name, a.staticValue? s⟩) = as := by
  induction as generalizing i with
  | nil => rfl
  | cons x as ih =>
    rw [placeAttributes, List.map_cons, ih h.right, x.staticValue?_place h.left]
    rfl

theorem SourceTag.piece_place {t : SourceTag} {stop : ℕ} {written : Option String}
    (h : Stretch s i (octets t.written)) (hspan : (⟨i, stop⟩ : Span).slice? s = written)
    (startTagEnd : ℕ) (endTagStart : Option ℕ) :
    (t.place i startTagEnd endTagStart stop).piece s = ⟨.element, written, t.name, t.attributes⟩ := by
  rw [← hspan]
  show Piece.mk _ _ _ (List.map _ (placeAttributes _ _)) = _
  rw [map_placeAttributes (t.stretch_attributes h)]
  rfl

/-- The spans of the nodes cut out what they were written as. -/
theorem Source.map_piece {m : Source} (h : Stretch s i (octets m.written)) :
    (m.forest i).nodes.map (Node.piece s) = m.pieces := by
  induction m generalizing i with
  | nil => rfl
  | leaf x m ih =>
    have hspan := h.left.slice?
    rw [forest, Forest.nodes, Forest.nodes, List.nil_append, List.map_cons, ih h.right, pieces, ← hspan]
    rfl
  | lone selfCloses tag m ih =>
    obtain ⟨hstart, hrest⟩ := stretch_lone h
    have hspan := h.left.slice?
    rw [Span.withLength, size_append, ← Nat.add_assoc] at hspan
    rw [forest, Forest.nodes, Forest.nodes, List.nil_append, List.map_cons, ih hrest,
      tag.piece_place hstart hspan]
    rfl
  | element tag children m ihc ihr =>
    obtain ⟨hstart, hinner, -, hrest⟩ := stretch_element h
    have hgt : size ">" = 1 := rfl
    have hspan := h.left.slice?
    simp only [Span.withLength, size_append, hgt, ← Nat.add_assoc] at hspan
    rw [forest, Forest.nodes, List.map_cons, List.map_append, ihc hinner, ihr hrest,
      tag.piece_place hstart hspan]
    rfl

/-! ## Documents -/

theorem Source.tokensFrom_written {m : Source} (h : m.WellFormed) :
    tokensFrom m.written 0 = m.tokens 0 ++ [.finish] := by
  have hrun := m.run_written h (show EndsText [] from nofun) 0
  rw [List.append_nil] at hrun
  rw [tokensFrom, Nat.zero_min, List.drop_zero, hrun, Mode.run, Mode.atEnd, pendingText_self]
  rfl

/-- A source that is written out reads as its forest. -/
theorem Document.ofText_eq {m : Source} (h : m.WellFormed)
    (hfront : FrontMatter.scan m.written = .absent) :
    ofText m.written = ⟨m.forest 0, .absent, []⟩ := by
  have hbuilt : (tokensFrom m.written 0).foldl (Assembly.step m.written) {} =
      { roots := (m.forest 0).trees.reverse } := by
    rw [m.tokensFrom_written h, List.foldl_append, m.foldl_tokens h rfl (stretch_octets _),
      Assembly.attachForest_of_nil rfl, List.append_nil]
    rfl
  have hforest := (m.forest 0).prependReversed_trees []
  rw [List.append_nil] at hforest
  have hread : ofText m.written =
      let built := (tokensFrom m.written 0).foldl (Assembly.step m.written) {}
      ⟨.prependReversed built.roots .nil, .absent, built.errors.reverse⟩ := by
    rw [ofText, hfront]
    rfl
  rw [hread, hbuilt]
  dsimp only
  rw [hforest]
  rfl

/-- **Markup.** A well-formed source that is written out reads without an error. The nodes and their links
are those of its forest in pre-order, and in the text each node says what it was written for. -/
theorem Document.ofText_written {m : Source} (h : m.WellFormed)
    (hfront : FrontMatter.scan m.written = .absent) :
    (ofText m.written).errors = [] ∧
      (ofText m.written).nodes = (m.forest 0).numbered none 0 ∧
      (ofText m.written).nodes.map (fun n => n.node.piece m.written) = m.pieces := by
  rw [ofText_eq h hfront]
  refine ⟨rfl, rfl, ?_⟩
  rw [← m.map_piece (stretch_octets m.written), ← Forest.map_node_numbered, List.map_map]
  rfl

theorem Document.ofText_written_nested :
    let m : Source :=
      .element ⟨"div", [⟨"class", some "a b"⟩, ⟨"open", none⟩]⟩
        (.element ⟨"div", []⟩ (.leaf (.text "x > y") .nil)
          (.lone false ⟨"br", []⟩ (.leaf (.comment " - ") .nil)))
        (.leaf (.expression "e") (.lone true ⟨"Box", [⟨"a", none⟩]⟩ .nil))
    m.WellFormed ∧ FrontMatter.scan m.written = .absent ∧
      (ofText m.written).errors = [] ∧
      (ofText m.written).nodes = (m.forest 0).numbered none 0 ∧
      (ofText m.written).nodes.map (fun n => n.node.piece m.written) = m.pieces := by
  intro m
  have hdiv : IsTagName "div" := ⟨'d', ['i', 'v'], rfl, rfl, rfl⟩
  have hbr : IsTagName "br" := ⟨'b', ['r'], rfl, rfl, rfl⟩
  have hbox : IsTagName "Box" := ⟨'B', ['o', 'x'], rfl, rfl, rfl⟩
  have hclass : SourceAttribute.WellFormed ⟨"class", some "a b"⟩ :=
    ⟨by decide, by decide, by simp⟩
  have hbare {name : String} (hne : name ≠ "") (hletters : name.toList.all isLetter = true) :
      SourceAttribute.WellFormed ⟨name, none⟩ := ⟨hne, hletters, nofun⟩
  have hinner : Source.WellFormed (.leaf (.text "x > y") .nil) :=
    ⟨⟨by decide, by decide, by decide⟩, fun _ => rfl, trivial⟩
  have hcomment : Source.WellFormed (.leaf (.comment " - ") .nil) :=
    ⟨show ¬ "-->".toList <:+: " - ".toList by decide, nofun, trivial⟩
  have hrest : Source.WellFormed (.leaf (.expression "e") (.lone true ⟨"Box", [⟨"a", none⟩]⟩ .nil)) :=
    ⟨by simp [SourceLeaf.WellFormed], nofun,
      ⟨hbox, List.forall_mem_singleton.2 (hbare (by decide) (by decide))⟩, nofun, trivial⟩
  have hwell : m.WellFormed :=
    ⟨⟨hdiv, List.forall_mem_cons.2 ⟨hclass,
        List.forall_mem_singleton.2 (hbare (by decide) (by decide))⟩⟩, by decide, by decide,
      ⟨⟨hdiv, nofun⟩, by decide, by decide, hinner, ⟨hbr, nofun⟩, fun _ => by decide, hcomment⟩, hrest⟩
  have hfront : FrontMatter.scan m.written = .absent := by decide
  exact ⟨hwell, hfront, ofText_written hwell hfront⟩

end Polyglot.Markup
