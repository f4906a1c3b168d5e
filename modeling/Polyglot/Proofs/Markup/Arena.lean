import Polyglot.Proofs.FrontMatter
import Polyglot.Proofs.Markup.Origin

/-!
# The arena of a document

The nodes of a document, in the order in which they are numbered, form a tree that is nested and in
pre-order (`Document.isArena`): what stands where follows from the numbers (`Forest.Placed`), the spans
from the nesting (`Document.within`), and the rest from what the tokens made (`Document.origin`).
-/

namespace Polyglot.Markup

open Text Forest

variable {s : String} {i : ℕ}

/-! ## The tokens of a document -/

theorem isBoundary_markupStart (s : String) :
    isBoundary s (Document.markupStart (FrontMatter.scan s) s) = true := by
  unfold Document.markupStart
  split
  next => exact isBoundary_zero s
  next start hscan =>
    obtain ⟨a, inner, hs, ha⟩ := FrontMatter.scan_opened hscan
    have hfence : start + FrontMatter.fenceLength = size (a ++ "---") := by
      rw [FrontMatter.size_fence, ha]
    have hboundary : isBoundary s (start + FrontMatter.fenceLength) = true :=
      isBoundary_iff.2 ⟨_, inner, hs, hfence.symm⟩
    rw [Nat.min_eq_left (le_size_of_isBoundary hboundary)]
    exact hboundary
  next start stop hscan =>
    obtain ⟨a, inner, b, hs, -, hstop⟩ := FrontMatter.scan_closed hscan
    exact isBoundary_iff.2 ⟨_, b, hs, hstop⟩

/-- The tokens from which a document is assembled. -/
def Document.tokens (s : String) : List Token :=
  tokensFrom s (Document.markupStart (FrontMatter.scan s) s)

namespace Document

/-- The tree of a document is what its tokens are assembled to. -/
theorem exists_assembled (s : String) : ∃ errors, (ofText s).forest =
    .prependReversed ((tokens s).foldl (Assembly.step s) { errors }).roots .nil := ⟨_, rfl⟩

/-- The nodes of a document come from its tokens, and keep what these say. -/
theorem origin (s : String) :
    (∀ n ∈ (ofText s).forest.nodes, n.Sound s) ∧
      (ofText s).forest.Ends (Node.Runs s (tokens s)) ∧
      (ofText s).forest.nodes.map Node.origin = (tokens s).filterMap Token.origin? := by
  obtain ⟨errors, hforest⟩ := exists_assembled s
  obtain ⟨⟨hsound, hended, horigins⟩, hstarting, hstack⟩ := Assembly.built_of_stream
    (tokensFrom_stream s (markupStart (FrontMatter.scan s) s)) (.start errors) rfl
    (tokensFrom_onEdges (isBoundary_markupStart s)) fun _ => id
  rw [hforest]
  have hnodes := hsound.nodes
  unfold Assembly.nodes at hnodes
  unfold Assembly.Ended Assembly.complete at hended
  unfold Assembly.origins Assembly.nodes at horigins
  rw [hstack] at hnodes hended horigins
  rw [hstarting] at horigins
  simp only [List.reverse_nil, List.flatMap_nil, List.append_nil, Option.toList_none,
    List.filterMap_nil] at hnodes hended horigins
  exact ⟨hnodes, ends_prependReversed hended trivial, horigins⟩

/-! ## The arena -/

/-- A node of an arena in a text: it is not empty and cuts no character, its children lie one behind the
other in its content, and its attributes in its start tag, which goes on to its end if it is not
complete. -/
structure Fits (s : String) (links : List Numbered) (n : Numbered) : Prop where
  nonempty : n.node.span.start < n.node.span.stop
  le_size : n.node.span.stop ≤ size s
  start : isBoundary s n.node.span.start = true
  stop : isBoundary s n.node.span.stop = true
  childless : n.node.startTagEnd = none → n.children = []
  content : ∀ a, n.node.startTagEnd = some a →
    n.node.contentSpan? = some ⟨a, n.node.contentEnd⟩ ∧ n.node.span.start < a ∧
      n.node.contentEnd ≤ n.node.span.stop ∧ InOrder a n.node.contentEnd (spansOf links n.children)
  attributes : InOrder n.node.span.start (n.node.startTagEnd.getD n.node.span.stop)
    (n.node.attributes.map Attribute.span)

/-- The nodes of a document are a well-nested tree in pre-order. -/
structure IsArena (s : String) (d : Document) : Prop where
  /-- Each number is listed once, under the roots or in the children of one node. -/
  once : (d.roots ++ d.nodes.flatMap (·.children)).Perm (List.range d.nodes.length)
  listed : ∀ (i : ℕ) (n : Numbered), d.nodes[i]? = some n → (n.parent = none ↔ i ∈ d.roots) ∧
    ∀ p, n.parent = some p ↔ ∃ m, d.nodes[p]? = some m ∧ i ∈ m.children
  upward : ∀ (p : ℕ) (m : Numbered), d.nodes[p]? = some m → ∀ i ∈ m.children, p < i
  /-- The traversal of the roots meets the numbers in their order. -/
  preorder : Visits d.nodes d.roots (List.range d.nodes.length)
  /-- There is one node for each token that begins one, in the order of the tokens. -/
  origins : d.nodes.map (fun n => n.node.origin) = (tokens s).filterMap Token.origin?
  roots : InOrder (markupStart d.frontMatter s) (size s) (spansOf d.nodes d.roots)
  fits : ∀ n ∈ d.nodes, Fits s d.nodes n
  /-- An element that no end tag closes runs to the end of the text, unless it ends with its start tag. -/
  unclosed : ∀ i, Unclosed d.nodes i →
    ∃ n, d.nodes[i]? = some n ∧ n.node.Runs s (tokens s)

/-- The node with number `i` is such as the nesting says. -/
theorem fits_of_within {P : Node → Forest → Prop} {f : Forest} {n : Numbered} {lo : ℕ}
    (h : Within P lo (size s) f) (hsound : ∀ n ∈ f.nodes, n.Sound s)
    (hn : (f.numbered none 0)[i]? = some n) : Fits s (f.numbered none 0) n := by
  obtain ⟨below, hholds, hchildren, hbelow⟩ := exists_of_getElem?_numbered hn
  obtain ⟨⟨-, hnonempty, hle⟩, hcontent⟩ := h.of_holds hholds
  obtain ⟨hstart, hstop, hattributes⟩ := hsound n.node hholds.mem_nodes
  refine ⟨hnonempty, hle, hstart, hstop, fun hnone => ?_, fun a ha => ?_, hattributes.inOrder⟩
  · rcases hcontent with ⟨-, rfl⟩ | ⟨a, ha, -⟩
    · exact hchildren
    · rw [hnone] at ha
      cases ha
  · rcases hcontent with ⟨hnone, -⟩ | ⟨b, hb, hlt, hcontent, hwithin⟩
    · rw [hnone] at ha
      cases ha
    · obtain rfl : a = b := Option.some.inj (ha.symm.trans hb)
      refine ⟨?_, hlt, hcontent, ?_⟩
      · unfold Node.contentSpan?
        rw [ha]
        exact if_pos hwithin.le
      · rw [hchildren, hbelow.spansOf]
        exact hwithin.inOrder

/-- A nested forest whose nodes come from the tokens is numbered as an arena. -/
theorem isArena_of_within {P : Node → Forest → Prop} {d : Document}
    (hwithin : Within P (markupStart d.frontMatter s) (size s) d.forest)
    (hsound : ∀ n ∈ d.forest.nodes, n.Sound s) (hends : d.forest.Ends (Node.Runs s (tokens s)))
    (horigins : d.forest.nodes.map Node.origin = (tokens s).filterMap Token.origin?) :
    d.IsArena s := by
  have hrange : List.range d.nodes.length = List.range' 0 d.forest.size := by
    rw [List.range_eq_range']
    exact congrArg (List.range' 0) length_numbered
  constructor
  case once =>
    rw [hrange]
    exact perm_numbered
  case listed => exact fun i n => Forest.listed
  case upward => exact fun p m hm i hi => (getElem?_of_mem_children hm hi).1
  case preorder =>
    rw [hrange]
    exact (placed_numbered _).visits
  case origins =>
    calc d.nodes.map (fun n => n.node.origin)
        = (d.nodes.map Numbered.node).map Node.origin := by
          rw [List.map_map]
          rfl
      _ = d.forest.nodes.map Node.origin := congrArg _ map_node_numbered
      _ = (tokens s).filterMap Token.origin? := horigins
  case roots =>
    unfold nodes roots
    rw [(placed_numbered _).spansOf]
    exact hwithin.inOrder
  case fits =>
    intro n hn
    obtain ⟨i, hi⟩ := List.mem_iff_getElem?.1 hn
    exact fits_of_within hwithin hsound hi
  case unclosed => exact fun i => hends.of_unclosed

/-- **Arena.** The nodes of every document are a well-nested tree in pre-order. -/
theorem isArena (s : String) : (ofText s).IsArena s := by
  obtain ⟨hsound, hends, horigins⟩ := origin s
  have hwithin := Document.within s
  rw [Nat.min_eq_left (le_size_of_isBoundary (isBoundary_markupStart s))] at hwithin
  exact isArena_of_within hwithin hsound hends horigins

end Document

end Polyglot.Markup
