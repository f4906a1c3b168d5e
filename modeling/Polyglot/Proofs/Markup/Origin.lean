import Polyglot.Proofs.Markup.Nesting
import Polyglot.Proofs.Markup.Numbering
import Polyglot.Proofs.Markup.Tiling

/-!
# Nodes and their tokens

Each node comes from one token, in the order of the tokens, and keeps what that token and those behind it
say (`Assembly.Built`). Complete and open nodes are listed in the order in which they began
(`Assembly.nodes`), so that opening, completing and closing a node are small changes of one list.
-/

namespace Polyglot.Markup

open Text Forest

variable {s : String} {all ts : List Token} {a : Assembly} {e : OpenElement}
  {rest stack : List OpenElement} {n : Node} {f : Forest} {p : Site} {i j : ℕ} {name : List Char}
  {change : Node → Node}

/-- The kind of node that a token begins, and where. -/
def Token.origin? : Token → Option (NodeKind × ℕ)
  | .text r => some (.text, r.start)
  | .expression r => some (.expression, r.start)
  | .comment r => some (.comment, r.start)
  | .doctype r => some (.doctype, r.start)
  | .openName r => some (.element, r.start - 1)
  | _ => none

/-- The kind of a node, and where it begins. -/
def Node.origin (n : Node) : NodeKind × ℕ := (n.kind, n.span.start)

/-- Attributes between two offsets, one behind the other and between characters. -/
structure AttributesFit (s : String) (lo hi : ℕ) (xs : List Attribute) : Prop where
  inOrder : InOrder lo hi (xs.map Attribute.span)
  edges : ∀ x ∈ xs, isBoundary s x.span.start = true ∧ isBoundary s x.span.stop = true

/-- A node stands between characters, with its attributes in its start tag. -/
structure Node.Sound (s : String) (n : Node) : Prop where
  start : isBoundary s n.span.start = true
  stop : isBoundary s n.span.stop = true
  attributes : AttributesFit s n.span.start (n.startTagEnd.getD n.span.stop) n.attributes

/-- A node whose start tag is read up to `i`. -/
structure Node.Starts (s : String) (n : Node) (i : ℕ) : Prop where
  start : isBoundary s n.span.start = true
  stop : isBoundary s n.span.stop = true
  startTagEnd : n.startTagEnd = none
  attributes : AttributesFit s n.span.start i n.attributes

/-- An element that is not closed by an end tag goes on to the end of the text, unless it is void or closes
itself and so ends with its start tag. -/
def Node.Runs (s : String) (all : List Token) (n : Node) : Prop :=
  n.isElement = true → n.span.stop = size s ∨ ∃ i, n.startTagEnd = some (i + 1) ∧
    n.span.stop = i + 1 ∧ (voidElements.contains n.tag = true ∨ .selfClose i ∈ all)

/-! ## Attributes -/

namespace AttributesFit

variable {lo hi hi' : ℕ} {xs : List Attribute} {x : Attribute}

theorem mono (h : AttributesFit s lo hi xs) (hle : hi ≤ hi') : AttributesFit s lo hi' xs :=
  ⟨h.inOrder.mono_right hle, h.edges⟩

theorem concat (h : AttributesFit s lo hi xs) (hspan : x.span = ⟨i, j⟩) (hi : hi ≤ i) (hij : i ≤ j)
    (hstart : isBoundary s i = true) (hstop : isBoundary s j = true) :
    AttributesFit s lo j (xs ++ [x]) := by
  refine ⟨?_, List.forall_mem_append.2 ⟨h.edges, List.forall_mem_singleton.2 ?_⟩⟩
  · rw [List.map_append, List.map_singleton, hspan]
    exact h.inOrder.concat (r := ⟨i, j⟩) hi hij
  · rw [hspan]
    exact ⟨hstart, hstop⟩

theorem modify_last (xs : List Attribute) (x : Attribute) (g : Attribute → Attribute) :
    (xs ++ [x]).modify ((xs ++ [x]).length - 1) g = xs ++ [g x] := by
  rw [List.length_append, List.length_singleton, Nat.add_sub_cancel]
  induction xs with
  | nil => rfl
  | cons y xs ih =>
    rw [List.cons_append, List.length_cons, List.modify_succ_cons, ih]
    rfl

theorem start_span (x : Attribute) : x.span.start = x.nameSpan.start := by
  unfold Attribute.span
  split <;> rfl

/-- A value belongs to the last attribute, and moves its end. -/
theorem setValue {v : Value} (h : AttributesFit s lo hi xs) (hle : hi ≤ v.rawSpan.start)
    (hv : v.rawSpan.start ≤ v.rawSpan.stop) (hstop : isBoundary s v.rawSpan.stop = true) :
    AttributesFit s lo v.rawSpan.stop
      (xs.modify (xs.length - 1) fun x => { x with value := some v }) := by
  rcases xs.eq_nil_or_concat with rfl | ⟨earlier, x, rfl⟩
  · exact h.mono (hle.trans hv)
  · rw [List.concat_eq_append] at h ⊢
    rw [modify_last]
    obtain ⟨hinOrder, hx, hhi⟩ := InOrder.of_concat (List.map_append ▸ h.inOrder)
    have hedges := List.forall_mem_append.1 h.edges
    have hstart := (hedges.2 x List.mem_cons_self).1
    rw [start_span] at hinOrder hx hstart
    exact concat ⟨hinOrder, hedges.1⟩ (i := x.nameSpan.start) rfl le_rfl (by omega) hstart hstop

end AttributesFit

/-! ## Complete and open nodes -/

theorem nodes_prependReversed (siblings : List (Node × Forest)) (f : Forest) :
    (prependReversed siblings f).nodes =
      siblings.reverse.flatMap (fun x => x.1 :: x.2.nodes) ++ f.nodes := by
  induction siblings generalizing f with
  | nil => rfl
  | cons x earlier ih =>
    rw [prependReversed, ih, List.reverse_cons, List.flatMap_append]
    simp [nodes]

/-- An open element and what is complete in it. -/
def OpenElement.nodes (e : OpenElement) : List Node :=
  e.node :: (prependReversed e.children .nil).nodes

namespace Assembly

/-- The complete nodes and the open ones, in the order in which they began. -/
def nodes (a : Assembly) : List Node :=
  (prependReversed a.roots .nil).nodes ++ a.stack.reverse.flatMap OpenElement.nodes

/-- The complete nodes that are not below another one. -/
def complete (a : Assembly) : List (Node × Forest) :=
  a.roots ++ a.stack.flatMap OpenElement.children

theorem nodes_attach (a : Assembly) (n : Node) (f : Forest) :
    (a.attach n f).nodes = a.nodes ++ n :: f.nodes := by
  unfold attach nodes
  split
  next hstack =>
    rw [hstack]
    simp [nodes_prependReversed, prependReversed, Forest.nodes]
  next e stack hstack =>
    rw [hstack]
    simp [OpenElement.nodes, nodes_prependReversed, prependReversed, Forest.nodes]

theorem mem_complete_attach {x : Node × Forest} (h : x ∈ (a.attach n f).complete) :
    x = (n, f) ∨ x ∈ a.complete := by
  unfold attach complete at h
  unfold complete
  split at h
  next => exact List.mem_cons.1 h
  next e stack hstack =>
    rw [hstack, List.flatMap_cons]
    simp only [List.flatMap_cons, List.mem_append, List.mem_cons] at h ⊢
    tauto

@[simp] theorem map_node_attach (a : Assembly) (n : Node) (f : Forest) :
    (a.attach n f).stack.map OpenElement.node = a.stack.map OpenElement.node := by
  unfold attach
  split
  next => rfl
  next hstack =>
    rw [hstack]
    rfl

/-- Opening an element. -/
theorem nodes_push (a : Assembly) (n : Node) :
    ({ a with starting := none, stack := ⟨n, []⟩ :: a.stack } : Assembly).nodes = a.nodes ++ [n] := by
  simp [nodes, OpenElement.nodes, prependReversed, Forest.nodes]

/-- The innermost open element comes last. -/
theorem nodes_pop (hstack : a.stack = e :: rest) :
    a.nodes = ({ a with stack := rest } : Assembly).nodes ++ e.nodes := by
  simp [nodes, hstack]

/-! ## What is sound -/

/-- The nodes are sound, and the start tags of those still open are complete. -/
structure Sound (s : String) (a : Assembly) : Prop where
  nodes : ∀ n ∈ a.nodes, n.Sound s
  opened : ∀ n ∈ a.stack.map OpenElement.node, n.startTagEnd.isSome = true

namespace Sound

theorem attach (h : a.Sound s) (hn : n.Sound s) (hf : ∀ m ∈ f.nodes, m.Sound s) :
    (a.attach n f).Sound s := by
  refine ⟨?_, ?_⟩
  · rw [nodes_attach]
    exact List.forall_mem_append.2 ⟨h.nodes, List.forall_mem_cons.2 ⟨hn, hf⟩⟩
  · rw [map_node_attach]
    exact h.opened

theorem pop (h : a.Sound s) (hstack : a.stack = e :: rest) :
    ({ a with stack := rest } : Assembly).Sound s ∧ e.node.Sound s ∧
      e.node.startTagEnd.isSome = true ∧ ∀ m ∈ (prependReversed e.children .nil).nodes, m.Sound s := by
  have hnodes := nodes_pop hstack ▸ h.nodes
  have hopened := hstack ▸ h.opened
  rw [List.forall_mem_append, OpenElement.nodes, List.forall_mem_cons] at hnodes
  rw [List.map_cons, List.forall_mem_cons] at hopened
  exact ⟨⟨hnodes.1, hopened.2⟩, hnodes.2.1, hopened.1, hnodes.2.2⟩

theorem close {stop : ℕ} (h : a.Sound s) (hstop : isBoundary s stop = true)
    (hchange : ∀ n, ∃ endTag, change n =
      { n with span := ⟨n.span.start, stop⟩, endTagStart := endTag }) :
    (a.close change).Sound s := by
  unfold Assembly.close
  split
  next => exact h
  next e rest hstack =>
    obtain ⟨hrest, hnode, hopened, hchildren⟩ := h.pop hstack
    refine hrest.attach ?_ hchildren
    obtain ⟨endTag, heq⟩ := hchange e.node
    obtain ⟨b, hb⟩ := Option.isSome_iff_exists.1 hopened
    have hattributes := hnode.attributes
    rw [hb] at hattributes
    rw [heq]
    refine ⟨hnode.start, hstop, ?_⟩
    dsimp only
    rw [hb]
    exact hattributes

theorem abandon (h : a.Sound s) (hi : isBoundary s i = true) (k : ℕ) : (a.abandon i k).Sound s := by
  induction k generalizing a with
  | zero => exact h
  | succ k ih =>
    rcases hstack : a.stack with _ | ⟨e, rest⟩
    · rw [abandon_nil hstack]
      exact h
    · rw [abandon_cons hstack]
      have hclosed := h.close hi fun n => ⟨n.endTagStart, rfl⟩
      exact ih ⟨hclosed.nodes, hclosed.opened⟩

end Sound

/-! ## Where open elements end -/

/-- Among the complete nodes, what no end tag closes runs as far as it may. -/
def Ended (s : String) (all : List Token) (a : Assembly) : Prop :=
  ∀ x ∈ a.complete, (Forest.cons x.1 x.2 .nil).Ends (Node.Runs s all)

namespace Ended

theorem attach (h : a.Ended s all) (hn : (Forest.cons n f .nil).Ends (Node.Runs s all)) :
    (a.attach n f).Ended s all := by
  intro x hx
  rcases mem_complete_attach hx with rfl | hx
  · exact hn
  · exact h x hx

theorem leaf (h : a.Ended s all) (hn : n.endTagStart = none → n.Runs s all) :
    (a.attach n .nil).Ended s all :=
  h.attach ⟨fun hend => ⟨hn hend, trivial⟩, trivial⟩

theorem pop (h : a.Ended s all) (hstack : a.stack = e :: rest) :
    ({ a with stack := rest } : Assembly).Ended s all ∧
      (prependReversed e.children .nil).Ends (Node.Runs s all) := by
  unfold Ended complete at h
  rw [hstack, List.flatMap_cons, List.forall_mem_append, List.forall_mem_append] at h
  exact ⟨List.forall_mem_append.2 ⟨h.1, h.2.2⟩, ends_prependReversed h.2.1 trivial⟩

/-- At the end of the text all open elements end there. -/
theorem abandon (h : a.Ended s all) (k : ℕ) : (a.abandon (size s) k).Ended s all := by
  induction k generalizing a with
  | zero => exact h
  | succ k ih =>
    rcases hstack : a.stack with _ | ⟨e, rest⟩
    · rw [abandon_nil hstack]
      exact h
    · rw [abandon_cons hstack]
      refine ih ?_
      show (a.close _).Ended s all
      obtain ⟨hrest, hchildren⟩ := h.pop hstack
      unfold close
      rw [hstack]
      exact hrest.attach ⟨fun _ => ⟨fun _ => .inl rfl, hchildren⟩, trivial⟩

end Ended

/-- Elements that are abandoned go into the one around them, and all around that one stays. -/
theorem abandon_inner {k : ℕ} (h : k < a.stack.length) : (a.abandon i k).roots = a.roots ∧
    (a.abandon i k).stack.tail = a.stack.drop (k + 1) := by
  induction k generalizing a with
  | zero => exact ⟨rfl, List.drop_one.symm⟩
  | succ k ih =>
    rcases hstack : a.stack with _ | ⟨e, _ | ⟨outer, rest⟩⟩
    · rw [hstack] at h
      cases h
    · rw [hstack, List.length_singleton] at h
      omega
    · rw [abandon_cons hstack]
      have hlt : k < (outer :: rest).length := by
        rw [hstack, List.length_cons] at h
        omega
      unfold close attach fail
      rw [hstack]
      exact ih hlt

theorem lt_of_matching? {tag : String} {inner : ℕ} (h : a.matching? tag = some inner) :
    inner < a.stack.length := by
  unfold matching? at h
  rcases Option.or_eq_some_iff.1 h with h | ⟨-, h⟩
  · exact (List.findIdx?_eq_some_iff_getElem.1 h).1
  · exact (List.findIdx?_eq_some_iff_getElem.1 h).1

/-- What ends at an end tag need not run on. -/
theorem Ended.close_endTag {inner lt stop : ℕ} (h : a.Ended s all) (hinner : inner < a.stack.length) :
    ((a.abandon i inner).close fun node =>
      { node with endTagStart := some lt, span.stop := stop }).Ended s all := by
  obtain ⟨hroots, htail⟩ := abandon_inner (i := i) hinner
  have hlength := length_stack_abandon a i inner
  unfold close
  split
  next hstack =>
    rw [hstack, List.length_nil] at hlength
    omega
  next e rest hstack =>
    rw [hstack, List.tail_cons] at htail
    refine attach (fun x hx => h x ?_) ⟨nofun, trivial⟩
    unfold complete at hx ⊢
    dsimp only at hx
    rw [hroots, htail] at hx
    refine (List.mem_append.1 hx).elim (List.mem_append_left _) fun hx => ?_
    obtain ⟨outer, houter, hx⟩ := List.mem_flatMap.1 hx
    exact List.mem_append_right _ (List.mem_flatMap.2 ⟨outer, List.mem_of_mem_drop houter, hx⟩)

/-! ## Where nodes come from -/

/-- The kinds and the beginnings of all nodes, with the one whose start tag is being read. -/
def origins (a : Assembly) : List (NodeKind × ℕ) := (a.nodes ++ a.starting.toList).map Node.origin

theorem origins_close (hchange : ∀ n, (change n).origin = n.origin) :
    (a.close change).origins = a.origins := by
  unfold origins
  rw [starting_close]
  unfold close
  split
  next => rfl
  next e rest hstack =>
    rw [nodes_attach, nodes_pop hstack, OpenElement.nodes]
    simp only [List.map_append, List.map_cons, hchange]

theorem origins_abandon (i k : ℕ) : (a.abandon i k).origins = a.origins := by
  induction k generalizing a with
  | zero => rfl
  | succ k ih =>
    rcases hstack : a.stack with _ | ⟨e, rest⟩
    · rw [abandon_nil hstack]
    · rw [abandon_cons hstack, ih]
      exact origins_close fun _ => rfl

/-! ## Tokens -/

/-- An assembly that has made nodes of all tokens but `ts`. -/
structure Built (s : String) (all : List Token) (a : Assembly) (ts : List Token) : Prop where
  sound : a.Sound s
  ended : a.Ended s all
  origins : a.origins ++ ts.filterMap Token.origin? = all.filterMap Token.origin?

namespace Built

variable {t : Token}

theorem start (errors : List Error) : ({ errors } : Assembly).Built s all all where
  sound := ⟨fun _ hn => absurd hn List.not_mem_nil, fun _ hn => absurd hn List.not_mem_nil⟩
  ended _ hx := absurd hx List.not_mem_nil
  origins := rfl

theorem skip (h : a.Built s all (t :: ts)) (ht : t.origin? = none) : a.Built s all ts := by
  have horigins := h.origins
  rw [List.filterMap_cons_none ht] at horigins
  exact ⟨h.sound, h.ended, horigins⟩

/-- A new node without children. -/
theorem attach (h : a.Built s all (t :: ts)) (hstarting : a.starting = none)
    (ht : t.origin? = some n.origin) (hn : n.Sound s) (helem : n.isElement = false) :
    (a.attach n .nil).Built s all ts ∧ (a.attach n .nil).starting = none := by
  have horigins := h.origins
  refine ⟨⟨h.sound.attach hn nofun, h.ended.leaf fun _ hcontra => ?_, ?_⟩, ?_⟩
  · rw [helem] at hcontra
    cases hcontra
  · rw [List.filterMap_cons_some ht] at horigins
    rw [← horigins]
    simp [Assembly.origins, nodes_attach, hstarting, Forest.nodes]
  · rw [starting_attach, hstarting]

theorem leaf (h : a.Built s all (t :: ts)) (hstarting : a.starting = none)
    (ht : t.leaf? = some ⟨i, j⟩) (hlt : i < j) (hedges : t.OnEdges s) :
    (step s a t).Built s all ts ∧ (step s a t).starting = none := by
  have hsound (kind : NodeKind) (hi : isBoundary s i = true) (hj : isBoundary s j = true) :
      Node.Sound s { kind, span := ⟨i, j⟩ } := ⟨hi, hj, ⟨.nil hlt.le, nofun⟩⟩
  cases t <;> cases ht
  all_goals
    obtain ⟨hi, hj⟩ : isBoundary s i = true ∧ isBoundary s j = true := by
      simpa [Token.OnEdges, Token.edges] using hedges
    unfold step attachLeaf
    dsimp only
    rw [if_pos hlt]
    exact h.attach hstarting rfl (hsound _ hi hj) rfl

/-- The element whose start tag is being read ends with it, or with the text. -/
theorem settle {g : Node → Node} (h : a.Built s all ts) (hstarting : a.starting = some n)
    (horigin : (g n).origin = n.origin) (hn : (g n).Sound s)
    (hruns : (g n).Runs s all) :
    (a.settle g).Built s all ts ∧ (a.settle g).starting = none := by
  have hsound : ({ a with starting := none } : Assembly).Sound s := ⟨h.sound.nodes, h.sound.opened⟩
  have hended : ({ a with starting := none } : Assembly).Ended s all := h.ended
  have horigins := h.origins
  unfold Assembly.settle
  rw [hstarting]
  refine ⟨⟨hsound.attach hn nofun, hended.leaf fun _ => hruns, ?_⟩, starting_attach _ _ _⟩
  rw [← horigins]
  unfold Assembly.origins
  rw [nodes_attach, starting_attach, hstarting]
  simp [horigin, Forest.nodes, Assembly.nodes]

/-- The start tag is complete, and the element stays open. -/
theorem push (h : a.Built s all ts) (hstarting : a.starting = some n)
    (hn : (endStartTag j n).Sound s) :
    ({ a with starting := none, stack := ⟨endStartTag j n, []⟩ :: a.stack } : Assembly).Built s all
      ts := by
  have horigins := h.origins
  refine ⟨⟨?_, List.forall_mem_cons.2 ⟨rfl, h.sound.opened⟩⟩, h.ended, ?_⟩
  · rw [nodes_push]
    exact List.forall_mem_append.2 ⟨h.sound.nodes, List.forall_mem_singleton.2 hn⟩
  · rw [← horigins]
    unfold Assembly.origins
    rw [nodes_push, hstarting]
    simp [Node.origin, endStartTag]

theorem closeTag {lt stop : ℕ} {r : Span} (h : a.Built s all (.closeTag lt r stop :: ts))
    (hstarting : a.starting = none) (hedges : (Token.closeTag lt r stop).OnEdges s) :
    (step s a (.closeTag lt r stop)).Built s all ts ∧
      (step s a (.closeTag lt r stop)).starting = none := by
  have hskip := h.skip rfl
  have hlt := hedges lt (by simp [Token.edges])
  have hstop := hedges (min (stop + 1) (size s)) (by simp [Token.edges])
  unfold step
  dsimp only
  split
  next =>
    split_ifs
    · exact ⟨hskip, hstarting⟩
    · exact ⟨⟨⟨hskip.sound.nodes, hskip.sound.opened⟩, hskip.ended, hskip.origins⟩, hstarting⟩
  next inner hmatching =>
    refine ⟨⟨?_, ?_, ?_⟩, by rw [starting_close, starting_abandon, hstarting]⟩
    · exact (hskip.sound.abandon hlt inner).close hstop fun n => ⟨some lt, rfl⟩
    · exact hskip.ended.close_endTag (lt_of_matching? hmatching)
    · rw [origins_close, origins_abandon]
      · exact hskip.origins
      · exact fun _ => rfl

end Built

end Assembly

/-- The start tag that is being read at a site. -/
def Site.Reads (s : String) (starting : Option Node) : Site → Prop
  | .tag _ i => ∃ n, starting = some n ∧ n.Starts s i
  | _ => starting = none

namespace Assembly

variable {t : Token}

/-- A token of a start tag changes the attributes of the element. -/
theorem Built.attributed {g : List Attribute → List Attribute} (h : a.Built s all (t :: ts))
    (ht : t.origin? = none) (hp : (Site.tag name i).Reads s a.starting)
    (hg : ∀ lo xs, AttributesFit s lo i xs → AttributesFit s lo j (g xs)) :
    let change n := { n with attributes := g n.attributes }
    ({ a with starting := a.starting.map change } : Assembly).Built s all ts ∧
      (Site.tag name j).Reads s (a.starting.map change) := by
  intro change
  obtain ⟨n, hstarting, hn⟩ := hp
  have hskip := h.skip ht
  have horigins := hskip.origins
  refine ⟨⟨⟨hskip.sound.nodes, hskip.sound.opened⟩, hskip.ended, ?_⟩, change n, ?_,
    hn.start, hn.stop, hn.startTagEnd, hg _ _ hn.attributes⟩
  · rw [← horigins]
    unfold Assembly.origins
    dsimp only
    rw [hstarting, Option.map_some]
    simp [Assembly.nodes, Node.origin, change]
  · rw [hstarting, Option.map_some]

/-- A start tag that ends at `j`. -/
theorem sound_endStartTag (hn : n.Starts s i) (hle : i ≤ j) (hj : isBoundary s (j + 1) = true) :
    (endStartTag j n).Sound s :=
  ⟨hn.start, hj, hn.attributes.mono (Nat.le_succ_of_le hle)⟩

theorem Built.openEnd (h : a.Built s all (.openEnd j :: ts))
    (hp : (Site.tag name i).Reads s a.starting) (hle : i ≤ j)
    (hedges : (Token.openEnd j).OnEdges s) :
    (step s a (.openEnd j)).Built s all ts ∧ (step s a (.openEnd j)).starting = none := by
  obtain ⟨n, hstarting, hn⟩ := hp
  have hj := hedges (j + 1) (by simp [Token.edges])
  have hsound := sound_endStartTag hn hle hj
  unfold step
  dsimp only
  rw [hstarting]
  dsimp only
  split_ifs with hvoid
  · exact (h.skip rfl).settle hstarting rfl hsound fun _ => .inr ⟨j, rfl, rfl, .inl hvoid⟩
  · exact ⟨(h.skip rfl).push hstarting hsound, rfl⟩

theorem Built.selfClose (h : a.Built s all (.selfClose j :: ts))
    (hp : (Site.tag name i).Reads s a.starting) (hle : i ≤ j)
    (hedges : (Token.selfClose j).OnEdges s) (hmem : .selfClose j ∈ all) :
    (step s a (.selfClose j)).Built s all ts ∧ (step s a (.selfClose j)).starting = none := by
  obtain ⟨n, hstarting, hn⟩ := hp
  have hj := hedges (j + 1) (by simp [Token.edges])
  exact (h.skip rfl).settle hstarting rfl (sound_endStartTag hn hle hj) fun _ =>
    .inr ⟨j, rfl, rfl, .inr hmem⟩

/-- At the end of the text every open element ends. -/
theorem Built.abandon (h : a.Built s all ts) (hstarting : a.starting = none) :
    (a.abandon (size s) a.stack.length).Built s all ts ∧
      (a.abandon (size s) a.stack.length).starting = none ∧
      (a.abandon (size s) a.stack.length).stack = [] := by
  have hlength := length_stack_abandon a (size s) a.stack.length
  rw [Nat.sub_self, List.length_eq_zero_iff] at hlength
  refine ⟨⟨h.sound.abandon (isBoundary_size s) _, h.ended.abandon _, ?_⟩, ?_, hlength⟩
  · rw [origins_abandon]
    exact h.origins
  · rw [starting_abandon, hstarting]

theorem Built.finish (h : a.Built s all [.finish]) (hp : p.Reads s a.starting)
    (hi : ∀ name j, p = .tag name j → j ≤ size s) :
    (step s a .finish).Built s all [] ∧ (step s a .finish).starting = none ∧
      (step s a .finish).stack = [] := by
  have hskip := h.skip rfl
  unfold step
  dsimp only
  rcases hstarting : a.starting with _ | n
  · unfold Assembly.settle
    rw [hstarting]
    exact hskip.abandon hstarting
  · rcases p with i | ⟨name, j⟩ | ⟨name, j⟩ | ⟨name, j⟩
    case tag =>
      obtain ⟨m, hm, hn⟩ := hp
      obtain rfl : n = m := by
        rw [hstarting] at hm
        exact Option.some.inj hm
      have hle := hi name j rfl
      obtain ⟨hsettled, hnone⟩ := hskip.settle
        (g := fun node => { node with span.stop := size s }) hstarting rfl
        ⟨hn.start, isBoundary_size s, by
          dsimp only
          rw [hn.startTagEnd]
          exact hn.attributes.mono hle⟩ fun _ => .inl rfl
      exact hsettled.abandon hnone
    all_goals
      rw [show a.starting = none from hp] at hstarting
      cases hstarting

theorem Built.openName (h : a.Built s all (.openName ⟨i + 1, j⟩ :: ts)) (hstarting : a.starting = none)
    (hlt : i < j) (hedges : (Token.openName ⟨i + 1, j⟩).OnEdges s) :
    (step s a (.openName ⟨i + 1, j⟩)).Built s all ts ∧
      ∃ n, (step s a (.openName ⟨i + 1, j⟩)).starting = some n ∧ n.Starts s j := by
  have hi := hedges i (by simp [Token.edges])
  have hj := hedges j (by simp [Token.edges])
  have horigins := h.origins
  unfold step Assembly.settle
  dsimp only
  rw [hstarting]
  refine ⟨⟨⟨h.sound.nodes, h.sound.opened⟩, h.ended, ?_⟩, _, rfl, hi, hj, rfl, .nil hlt.le,
    fun _ hx => absurd hx List.not_mem_nil⟩
  rw [List.filterMap_cons_some (show Token.origin? (.openName ⟨i + 1, j⟩) = some _ from rfl)]
    at horigins
  rw [← horigins]
  unfold Assembly.origins
  dsimp only
  rw [hstarting]
  simp [Node.origin, Assembly.nodes]

/-- **Origin.** Taking a stream of tokens makes a node of each token that begins one. -/
theorem built_of_stream (h : Stream (octets s) p ts) (ha : a.Built s all ts)
    (hp : p.Reads s a.starting) (hedges : ∀ t ∈ ts, t.OnEdges s) (hall : ∀ t ∈ ts, t ∈ all) :
    (ts.foldl (step s) a).Built s all [] ∧ (ts.foldl (step s) a).starting = none ∧
      (ts.foldl (step s) a).stack = [] := by
  induction h generalizing a with
  | finish => exact ha.finish hp nofun
  | finishTag hi =>
    refine ha.finish hp ?_
    rintro name j ⟨⟩
    exact length_octets s ▸ hi
  | finishRaw => exact ha.finish hp nofun
  | error _ _ _ ih =>
    have hskip := ha.skip rfl
    exact ih ⟨⟨hskip.sound.nodes, hskip.sound.opened⟩, hskip.ended, hskip.origins⟩ hp
      (List.forall_mem_cons.1 hedges).2 (List.forall_mem_cons.1 hall).2
  | leaf ht hlt _ _ ih =>
    obtain ⟨ht', hts⟩ := List.forall_mem_cons.1 hedges
    obtain ⟨hbuilt, hnone⟩ := ha.leaf hp ht hlt ht'
    exact ih hbuilt hnone hts (List.forall_mem_cons.1 hall).2
  | openName hopens hlt hj _ ih =>
    obtain ⟨ht, hts⟩ := List.forall_mem_cons.1 hedges
    obtain ⟨hbuilt, hreads⟩ := ha.openName hp hlt ht
    exact ih hbuilt hreads hts (List.forall_mem_cons.1 hall).2
  | @attributeName name i x y ts hle hlt _ _ ih =>
    obtain ⟨ht, hts⟩ := List.forall_mem_cons.1 hedges
    obtain ⟨hbuilt, hreads⟩ := ha.attributed (j := y)
      (g := (· ++ [⟨spelling s ⟨x, y⟩, ⟨x, y⟩, none⟩])) rfl hp fun lo xs hxs =>
        hxs.concat rfl hle hlt.le (ht x (by simp [Token.edges])) (ht y (by simp [Token.edges]))
    exact ih hbuilt hreads hts (List.forall_mem_cons.1 hall).2
  | @attributeValue name i kind r ts hle hr _ _ ih =>
    obtain ⟨ht, hts⟩ := List.forall_mem_cons.1 hedges
    obtain ⟨hbuilt, hreads⟩ := ha.attributed (j := (Value.mk kind r).rawSpan.stop)
      (g := fun xs => xs.modify (xs.length - 1) fun x => { x with value := some ⟨kind, r⟩ }) rfl hp
      fun lo xs hxs => hxs.setValue hle (Value.rawSpan_le hr) (ht _ (by simp [Token.edges]))
    exact ih hbuilt hreads hts (List.forall_mem_cons.1 hall).2
  | @shorthand name i x y ts hle hlt _ _ ih =>
    obtain ⟨ht, hts⟩ := List.forall_mem_cons.1 hedges
    let attr : Attribute := ⟨Text.trim (spelling s ⟨x + 1, y - 1⟩), ⟨x, y⟩,
      some ⟨.expression, ⟨x + 1, y - 1⟩⟩⟩
    have hspan : attr.span = ⟨x, y⟩ := congrArg (Span.mk x) (show y - 1 + 1 = y by omega)
    obtain ⟨hbuilt, hreads⟩ := ha.attributed (j := y) (g := (· ++ [attr])) rfl hp fun lo xs hxs =>
      hxs.concat hspan hle (by omega) (ht x (by simp [Token.edges])) (ht y (by simp [Token.edges]))
    exact ih hbuilt hreads hts (List.forall_mem_cons.1 hall).2
  | openEnd hle _ _ ih =>
    obtain ⟨ht, hts⟩ := List.forall_mem_cons.1 hedges
    obtain ⟨hbuilt, hnone⟩ := ha.openEnd hp hle ht
    refine ih hbuilt ?_ hts (List.forall_mem_cons.1 hall).2
    unfold Site.content
    split_ifs <;> exact hnone
  | selfClose hle _ _ ih =>
    obtain ⟨ht, hts⟩ := List.forall_mem_cons.1 hedges
    obtain ⟨hmem, hall⟩ := List.forall_mem_cons.1 hall
    obtain ⟨hbuilt, hnone⟩ := ha.selfClose hp hle ht hmem
    exact ih hbuilt hnone hts hall
  | closeTag hname hle hstop hlen _ ih =>
    obtain ⟨ht, hts⟩ := List.forall_mem_cons.1 hedges
    obtain ⟨hbuilt, hnone⟩ := ha.closeTag hp ht
    exact ih hbuilt hnone hts (List.forall_mem_cons.1 hall).2
  | @rawText name i j ts _ hle _ _ _ _ ih =>
    unfold pendingText at ha hedges hall ⊢
    split_ifs at ha hedges hall ⊢ with hlt
    · obtain ⟨ht, hts⟩ := List.forall_mem_cons.1 hedges
      obtain ⟨hbuilt, hnone⟩ := ha.leaf hp rfl hlt ht
      exact ih hbuilt hnone hts (List.forall_mem_cons.1 hall).2
    · exact ih ha hp hedges hall
  | rawClose hname hat hk hj hstop hlen _ ih =>
    obtain ⟨ht, hts⟩ := List.forall_mem_cons.1 hedges
    obtain ⟨hbuilt, hnone⟩ := ha.closeTag hp ht
    exact ih hbuilt hnone hts (List.forall_mem_cons.1 hall).2

end Assembly

end Polyglot.Markup
