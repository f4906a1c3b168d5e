import Polyglot.Markup.Document
import Polyglot.Proofs.FrontMatter
import Polyglot.Proofs.Markup.Shift

/-!
# Markup behind a prologue

What stands in front of the markup is not read: the assembly of a text from an offset on is that of the
rest of the text, with all offsets shifted (`assembled_append`). So two documents with closed front matter
and the same markup have the same nodes, links and errors (`Document.ofText_rest`).
-/

namespace Polyglot.Markup

open Text

/-! ## Nodes further on -/

/-- The same value `d` bytes further on. -/
def Value.shift (v : Value) (d : ℕ) : Value := ⟨v.kind, v.span.shift d⟩

/-- The same attribute `d` bytes further on. -/
def Attribute.shift (x : Attribute) (d : ℕ) : Attribute :=
  ⟨x.name, x.nameSpan.shift d, x.value.map (·.shift d)⟩

/-- The same node `d` bytes further on. -/
def Node.shift (n : Node) (d : ℕ) : Node :=
  { n with
    span := n.span.shift d
    startTagEnd := n.startTagEnd.map (· + d)
    endTagStart := n.endTagStart.map (· + d)
    attributes := n.attributes.map (·.shift d) }

/-- The same node with its links, `d` bytes further on. -/
def Numbered.shift (n : Numbered) (d : ℕ) : Numbered := { n with node := n.node.shift d }

/-- The same nodes `d` bytes further on. -/
def Forest.shift (d : ℕ) : Forest → Forest
  | nil => nil
  | cons node children rest => cons (node.shift d) (children.shift d) (rest.shift d)

/-- A node with its children `d` bytes further on. -/
def shiftTree (d : ℕ) (x : Node × Forest) : Node × Forest := (x.1.shift d, x.2.shift d)

def OpenElement.shift (e : OpenElement) (d : ℕ) : OpenElement :=
  ⟨e.node.shift d, e.children.map (shiftTree d)⟩

/-- The same assembly with all offsets `d` bytes further on. -/
def Assembly.shift (a : Assembly) (d : ℕ) : Assembly where
  roots := a.roots.map (shiftTree d)
  stack := a.stack.map (·.shift d)
  starting := a.starting.map (·.shift d)
  errors := a.errors.map (·.shift d)

/-- The values of the attributes of a node, with their quotes or braces. -/
def Node.rawSpans (n : Node) : List (Option Span) := n.attributes.map fun x => x.value.map Value.rawSpan

variable {d e i k : ℕ} {parent : Option ℕ} {f : Forest} {n : Node} {a : Assembly} {t : Token}
  {ts : List Token} {s : String} {g u : Node → Node} {cs : List Char} {p : Site}

/-! ## Forests -/

namespace Forest

theorem size_shift : (f.shift d).size = f.size := by
  induction f with
  | nil => rfl
  | cons node children rest ihc ihr => rw [shift, size, ihc, ihr, size]

theorem rootNumbers_shift : (f.shift d).rootNumbers i = f.rootNumbers i := by
  induction f generalizing i with
  | nil => rfl
  | cons node children rest _ ihr => rw [shift, rootNumbers, size_shift, ihr, rootNumbers]

theorem numbered_shift :
    (f.shift d).numbered parent i = (f.numbered parent i).map (·.shift d) := by
  induction f generalizing parent i with
  | nil => rfl
  | cons node children rest ihc ihr =>
    rw [shift, numbered, size_shift, rootNumbers_shift, ihc, ihr, numbered, List.map_cons,
      List.map_append]
    rfl

theorem prependReversed_shift {siblings : List (Node × Forest)} :
    prependReversed (siblings.map (shiftTree d)) (f.shift d) = (prependReversed siblings f).shift d := by
  induction siblings generalizing f with
  | nil => rfl
  | cons x earlier ih =>
    rw [prependReversed, ← ih]
    rfl

end Forest

/-! ## Steps -/

theorem spelling_append (x s : String) (r : Span) :
    spelling (x ++ s) (r.shift (size x)) = spelling s r := by
  unfold spelling
  rw [Span.slice?_append]

/-- A name has a `<` in front of it, and an attribute that is an expression has braces. -/
def Token.HasRoom : Token → Prop
  | .openName r => 0 < r.start
  | .shorthand r => 0 < r.stop
  | _ => True

theorem Stream.hasRoom (h : Stream cs p ts) : ∀ t ∈ ts, t.HasRoom := by
  induction h with
  | finish | finishTag | finishRaw => exact List.forall_mem_singleton.2 trivial
  | @leaf t _ _ _ ht _ _ _ ih =>
    refine List.forall_mem_cons.2 ⟨?_, ih⟩
    cases t <;> cases ht <;> trivial
  | openName _ _ _ _ ih => exact List.forall_mem_cons.2 ⟨Nat.succ_pos _, ih⟩
  | shorthand _ hlt _ _ ih => exact List.forall_mem_cons.2 ⟨Nat.zero_lt_of_lt hlt, ih⟩
  | rawText _ _ _ _ _ _ ih =>
    refine List.forall_mem_append.2 ⟨?_, ih⟩
    unfold Markup.pendingText
    split_ifs
    · exact List.forall_mem_singleton.2 trivial
    · exact List.forall_mem_nil _
  | error _ _ _ ih | openEnd _ _ _ ih | selfClose _ _ _ ih | attributeName _ _ _ _ ih
  | attributeValue _ _ _ _ ih | closeTag _ _ _ _ _ ih | rawClose _ _ _ _ _ _ _ ih =>
    exact List.forall_mem_cons.2 ⟨trivial, ih⟩

theorem modify_value_shift (xs : List Attribute) (v : Value) (k : ℕ) :
    ((xs.map (·.shift d)).modify k fun x => { x with value := some (v.shift d) }) =
      (xs.modify k fun x => { x with value := some v }).map (·.shift d) := by
  refine List.ext_getElem? fun j => ?_
  rw [List.getElem?_map, List.getElem?_modify, List.getElem?_modify, List.getElem?_map]
  split_ifs <;> cases xs[j]? <;> rfl

namespace Assembly

theorem attach_shift :
    (a.shift d).attach (n.shift d) (f.shift d) = (a.attach n f).shift d := by
  unfold attach
  rcases hstack : a.stack with _ | ⟨top, stack⟩
  · simp [shift, hstack, shiftTree]
  · simp [shift, hstack, shiftTree, OpenElement.shift]

theorem attachLeaf_shift {kind : NodeKind} {r : Span} :
    (a.shift d).attachLeaf kind (r.shift d) = (a.attachLeaf kind r).shift d := by
  unfold attachLeaf Span.shift
  simp only [Nat.add_lt_add_iff_right]
  split_ifs
  · exact attach_shift (n := { kind, span := r }) (f := .nil)
  · rfl

theorem fail_shift {fault : Fault} :
    (a.shift d).fail fault (i + d) = (a.fail fault i).shift d := rfl

theorem close_shift (hchange : ∀ n, u (n.shift d) = (g n).shift d) :
    (a.shift d).close u = (a.close g).shift d := by
  unfold close
  rcases hstack : a.stack with _ | ⟨top, stack⟩
  · simp [shift, hstack]
  · rw [← attach_shift, ← hchange, ← Forest.prependReversed_shift]
    simp [shift, hstack, OpenElement.shift, Forest.shift]

theorem length_stack_shift : (a.shift d).stack.length = a.stack.length := List.length_map _

theorem abandon_shift : (a.shift d).abandon (i + d) k = (a.abandon i k).shift d := by
  induction k generalizing a with
  | zero => rfl
  | succ k ih =>
    unfold abandon
    rcases hstack : a.stack with _ | ⟨top, stack⟩
    · simp [shift, hstack]
    · have hshift : (a.shift d).stack = top.shift d :: stack.map (·.shift d) := by
        simp [shift, hstack]
      rw [hshift]
      dsimp only
      rw [← ih, ← fail_shift, ← close_shift (u := fun n => { n with span.stop := i + d })
        fun n => rfl]
      rfl

theorem matching?_shift {tag : String} : (a.shift d).matching? tag = a.matching? tag := by
  unfold matching? shift
  simp only [List.findIdx?_map]
  rfl

theorem settle_shift (hchange : ∀ n, u (n.shift d) = (g n).shift d) :
    (a.shift d).settle u = (a.settle g).shift d := by
  unfold settle
  rcases hstarting : a.starting with _ | n
  · simp [shift, hstarting]
  · rw [← attach_shift, ← hchange]
    simp [shift, hstarting, Forest.shift]

theorem endStartTag_shift (n : Node) :
    endStartTag (i + d) (n.shift d) = (endStartTag i n).shift d := by
  unfold endStartTag
  rw [Nat.add_right_comm]
  rfl

theorem addAttribute_shift {x : Attribute} :
    (a.shift d).addAttribute (x.shift d) = (a.addAttribute x).shift d := by
  unfold addAttribute
  rcases hstarting : a.starting with _ | n
  · simp [shift, hstarting]
  · simp [shift, hstarting, Node.shift]

theorem setValue_shift {v : Value} :
    (a.shift d).setValue (v.shift d) = (a.setValue v).shift d := by
  unfold setValue
  rcases hstarting : a.starting with _ | n
  · simp [shift, hstarting]
  · simp only [shift, hstarting, Option.map_some, Node.shift, List.length_map]
    rw [modify_value_shift]

/-- A step looks at the octets of a token, but not at what stands in front of it. -/
theorem step_shift (x : String) (ht : t.HasRoom) :
    (a.shift (size x)).step (x ++ s) (t.shift (size x)) = (a.step s t).shift (size x) := by
  cases t
  case text | expression | comment | doctype => exact attachLeaf_shift
  case error => rfl
  case openName r =>
    have hroom : r.start + size x - 1 = r.start - 1 + size x := Nat.sub_add_comm ht
    rw [Token.shift, step, step, settle_shift (g := id) fun n => rfl, spelling_append, Span.shift]
    dsimp only
    rw [hroom]
    rfl
  case openEnd i =>
    rw [Token.shift, step, step]
    rcases hstarting : a.starting with _ | n
    · simp [shift, hstarting]
    · have hshift : (a.shift (size x)).starting = some (n.shift (size x)) := by
        simp [shift, hstarting]
      have htag : (n.shift (size x)).tag = n.tag := rfl
      rw [hshift]
      dsimp only
      rw [settle_shift endStartTag_shift, endStartTag_shift, htag]
      split_ifs <;> rfl
  case selfClose i => exact settle_shift endStartTag_shift
  case closeTag start name stop =>
    have hend : min (stop + size x + 1) (size (x ++ s)) = min (stop + 1) (size s) + size x := by
      rw [size_append, Nat.add_comm (size x), Nat.add_right_comm, Nat.add_min_add_right]
    rw [Token.shift, step, step, spelling_append, matching?_shift, hend]
    rcases a.matching? (spelling s name) with _ | inner
    · dsimp only
      split_ifs <;> rfl
    · dsimp only
      rw [abandon_shift]
      exact close_shift fun n => rfl
  case attributeName r =>
    rw [Token.shift, step, step, spelling_append]
    exact addAttribute_shift (x := ⟨_, r, none⟩)
  case attributeValue kind r => exact setValue_shift (v := ⟨kind, r⟩)
  case shorthand r =>
    have hroom : (⟨r.start + size x + 1, r.stop + size x - 1⟩ : Span) =
        Span.shift ⟨r.start + 1, r.stop - 1⟩ (size x) := by
      rw [Span.shift, Nat.sub_add_comm ht, Nat.add_right_comm]
    rw [Token.shift, step, step]
    dsimp only [Span.shift]
    rw [hroom, spelling_append]
    exact addAttribute_shift (x := ⟨_, r, some ⟨_, _⟩⟩)
  case finish =>
    have hsize : size (x ++ s) = size s + size x := by rw [size_append, Nat.add_comm]
    rw [Token.shift, step, step, hsize]
    dsimp only
    rw [settle_shift (g := fun n => { n with span.stop := size s }) fun n => rfl, abandon_shift,
      length_stack_shift]

theorem foldl_shift (x : String) (hts : ∀ t ∈ ts, t.HasRoom) :
    (ts.map (·.shift (size x))).foldl (step (x ++ s)) (a.shift (size x)) =
      (ts.foldl (step s) a).shift (size x) := by
  induction ts generalizing a with
  | nil => rfl
  | cons t ts ih =>
    obtain ⟨ht, hts⟩ := List.forall_mem_cons.1 hts
    rw [List.map_cons, List.foldl_cons, step_shift x ht, ih hts, List.foldl_cons]

end Assembly

/-! ## Documents -/

/-- What the tokens of a text from an offset on are assembled to. -/
def assembled (s : String) (start : ℕ) : Assembly :=
  (tokensFrom s start).foldl (Assembly.step s) {}

/-- **Shift.** Behind another text a text is assembled to the same, shifted by what stands in front. -/
theorem assembled_append (x s : String) :
    assembled (x ++ s) (size x) = (assembled s 0).shift (size x) := by
  unfold assembled
  rw [tokensFrom_append]
  exact Assembly.foldl_shift (a := {}) x (tokensFrom_stream s 0).hasRoom

theorem Error.shift_shift (x : Error) : (x.shift d).shift e = x.shift (d + e) := by
  unfold shift
  rw [Nat.add_assoc]

theorem Span.shift_shift (r : Span) : (r.shift d).shift e = r.shift (d + e) := by
  unfold Span.shift
  rw [Nat.add_assoc, Nat.add_assoc]

theorem Value.shift_shift (v : Value) : (v.shift d).shift e = v.shift (d + e) := by
  unfold shift
  rw [Span.shift_shift]

theorem Node.shift_shift (n : Node) : (n.shift d).shift e = n.shift (d + e) := by
  simp [shift, Attribute.shift, Value.shift_shift, Span.shift_shift, Function.comp_def, Nat.add_assoc]

theorem Numbered.shift_shift (n : Numbered) : (n.shift d).shift e = n.shift (d + e) := by
  unfold shift
  rw [Node.shift_shift]

/-- Behind other text a value has room for its quotes. -/
theorem Value.rawSpan_shift (v : Value) (h : 0 < v.span.start) :
    (v.shift d).rawSpan = v.rawSpan.shift d := by
  unfold rawSpan shift Span.shift
  dsimp only
  split
  · rfl
  · rw [Nat.sub_add_comm h, Nat.add_right_comm]

theorem Node.rawSpans_shift (n : Node) (hd : 0 < d) :
    (n.shift d).rawSpans.map (Option.map (·.shift e)) = (n.shift (d + e)).rawSpans := by
  unfold rawSpans Node.shift
  dsimp only
  rw [List.map_map, List.map_map, List.map_map]
  refine List.map_congr_left fun x _ => ?_
  rcases hvalue : x.value with _ | v
  · simp [Attribute.shift, hvalue]
  · have hroom : 0 < (v.shift d).span.start := Nat.add_pos_right _ hd
    have hspan : ((v.shift d).shift e).rawSpan = (v.shift (d + e)).rawSpan := by
      rw [Value.shift_shift]
    rw [Value.rawSpan_shift _ hroom] at hspan
    simp [Attribute.shift, hvalue, hspan]

namespace Document

/-- With closed front matter a document is its markup, shifted. -/
theorem exists_of_closed (h : FrontMatter.scan s = .closed i k) : ∃ m,
    (Span.mk k (size s)).slice? s = some m ∧ 0 < k ∧
      (ofText s).forest = (Forest.prependReversed (assembled m 0).roots .nil).shift k ∧
      (ofText s).errors = (assembled m 0).errors.reverse.map (·.shift k) := by
  obtain ⟨a, inner, m, hs, -, hk⟩ := FrontMatter.scan_closed h
  have hassembled : assembled s k = (assembled m 0).shift k := by
    rw [hs, ← hk]
    exact assembled_append _ m
  have hread : ofText s = ⟨.prependReversed (assembled s k).roots .nil, .closed i k,
      (assembled s k).errors.reverse⟩ := by
    unfold ofText
    rw [h]
    rfl
  refine ⟨m, ?_, ?_, ?_, ?_⟩
  · refine Span.slice?_eq_some_iff.2 ⟨_, "", ?_, hk, ?_⟩
    · rw [hs, String.append_empty]
    · rw [hs]
  · rw [← hk, size_append]
    exact Nat.add_pos_right _ (by decide)
  · rw [hread, hassembled]
    exact Forest.prependReversed_shift (f := .nil)
  · rw [hread, hassembled]
    exact List.map_reverse.symm

/-- **Prologue.** Two documents with closed front matter and the same text behind it have the same roots,
and the same nodes and errors up to the difference between the ends of the front matter. -/
theorem ofText_rest {t : String} {j l : ℕ} (hs : FrontMatter.scan s = .closed i k)
    (ht : FrontMatter.scan t = .closed j l)
    (hrest : (Span.mk k (size s)).slice? s = (Span.mk l (size t)).slice? t) :
    (ofText s).roots = (ofText t).roots ∧
      (ofText s).nodes.map (·.shift l) = (ofText t).nodes.map (·.shift k) ∧
      (ofText s).errors.map (·.shift l) = (ofText t).errors.map (·.shift k) ∧
      (ofText s).nodes.map (fun n => n.node.rawSpans.map (Option.map (·.shift l))) =
        (ofText t).nodes.map (fun n => n.node.rawSpans.map (Option.map (·.shift k))) := by
  obtain ⟨m, hm, hk, hforest, herrors⟩ := exists_of_closed hs
  obtain ⟨m', hm', hl, hforest', herrors'⟩ := exists_of_closed ht
  obtain rfl : m = m' := by
    rw [hm, hm'] at hrest
    exact Option.some.inj hrest
  unfold roots nodes
  rw [hforest, hforest', herrors, herrors', Forest.rootNumbers_shift, Forest.rootNumbers_shift,
    Forest.numbered_shift, Forest.numbered_shift]
  refine ⟨rfl, ?_, ?_, ?_⟩
  · simp [Numbered.shift_shift, Nat.add_comm]
  · simp [Error.shift_shift, Nat.add_comm]
  · simp [Numbered.shift, Node.rawSpans_shift, hk, hl, Nat.add_comm]

/-- Neither the tag, the quote nor the brace in the front matter is read. -/
theorem ofText_rest_script :
    let s := "---\n---\n<p a='b'>x</i>"
    let t := "---\n<script>\x7b'\n---\n<p a='b'>x</i>"
    FrontMatter.scan s = .closed 0 7 ∧ FrontMatter.scan t = .closed 0 18 ∧
      (Span.mk 7 (size s)).slice? s = (Span.mk 18 (size t)).slice? t ∧
      (ofText s).nodes.map (·.shift 18) = (ofText t).nodes.map (·.shift 7) ∧
      (ofText s).errors = [⟨.strayEndTag, 18⟩, ⟨.missingEndTag, 8⟩] ∧
      (ofText t).errors = [⟨.strayEndTag, 29⟩, ⟨.missingEndTag, 19⟩] := by
  intro s t
  have hs : FrontMatter.scan s = .closed 0 7 := by decide +kernel
  have ht : FrontMatter.scan t = .closed 0 18 := by decide +kernel
  have hrest : (Span.mk 7 (size s)).slice? s = (Span.mk 18 (size t)).slice? t := by decide +kernel
  exact ⟨hs, ht, hrest, (ofText_rest hs ht hrest).2.1, by decide +kernel, by decide +kernel⟩

end Document

end Polyglot.Markup
