import Polyglot.Proofs.Markup.Arena
import Polyglot.Proofs.Markup.Region
import Polyglot.Proofs.Text.Stretch

/-!
# Regions between characters

The ends of tags and of literal values lie between characters (`Node.OnEdges`): tokens do, and no step of
the assembly moves them (`Assembly.Holds.step`). So every region of a document is a slice of it
(`exists_slice?_of_mem_regions`).
-/

namespace Polyglot.Markup

open Text Forest

variable {s : String} {cs : List Char} {site : Site} {ts : List Token} {t : Token} {a : Assembly}
  {n : Node} {f : Forest} {p : Node → Prop} {change : Node → Node} {i k : ℕ} {r : Region}

/-! ## All nodes -/

namespace Assembly

/-- `p` holds of all nodes, the one whose start tag is being read included. -/
def Holds (p : Node → Prop) (a : Assembly) : Prop := ∀ n ∈ a.nodes ++ a.starting.toList, p n

namespace Holds

theorem attach (h : a.Holds p) (hn : p n) (hf : ∀ m ∈ f.nodes, p m) : (a.attach n f).Holds p := by
  unfold Holds at h ⊢
  rw [List.forall_mem_append] at h
  rw [nodes_attach, starting_attach]
  exact List.forall_mem_append.2
    ⟨List.forall_mem_append.2 ⟨h.1, List.forall_mem_cons.2 ⟨hn, hf⟩⟩, h.2⟩

theorem close (h : a.Holds p) (hchange : ∀ n, p n → p (change n)) : (a.close change).Holds p := by
  unfold Assembly.close
  split
  next => exact h
  next e rest hstack =>
    unfold Holds at h
    rw [nodes_pop hstack, OpenElement.nodes, List.forall_mem_append, List.forall_mem_append,
      List.forall_mem_cons] at h
    obtain ⟨⟨hrest, hnode, hchildren⟩, hstarting⟩ := h
    exact attach (List.forall_mem_append.2 ⟨hrest, hstarting⟩) (hchange _ hnode) hchildren

theorem abandon (h : a.Holds p) (hstop : ∀ n : Node, p n → p { n with span.stop := i }) (k : ℕ) :
    (a.abandon i k).Holds p := by
  induction k generalizing a with
  | zero => exact h
  | succ k ih =>
    rcases hstack : a.stack with _ | ⟨e, rest⟩
    · rw [abandon_nil hstack]
      exact h
    · rw [abandon_cons hstack]
      exact ih (h.close hstop)

theorem settle (h : a.Holds p) (hchange : ∀ n, p n → p (change n)) : (a.settle change).Holds p := by
  unfold Assembly.settle
  split
  next => exact h
  next n hstarting =>
    unfold Holds at h
    rw [hstarting, List.forall_mem_append] at h
    refine attach (List.forall_mem_append.2 ⟨h.1, nofun⟩) (hchange n ?_) nofun
    exact h.2 n (List.mem_singleton.2 rfl)

end Holds

end Assembly

/-! ## Edges -/

/-- The span of a literal value lies between characters. -/
def Value.Fits (s : String) (v : Value) : Prop := v.kind ≠ .expression → v.span.Fits s

/-- The ends of the tags of a node and of its literal values lie between characters. -/
structure Node.OnEdges (s : String) (n : Node) : Prop where
  startTagEnd : ∀ i ∈ n.startTagEnd, isBoundary s i = true
  endTagStart : ∀ i ∈ n.endTagStart, isBoundary s i = true
  values : ∀ x ∈ n.attributes, ∀ v ∈ x.value, v.Fits s

/-- A token lies between characters, and a value does not end before it starts. -/
structure Token.Fits (s : String) (t : Token) : Prop where
  edges : t.OnEdges s
  values : ∀ kind r, t = .attributeValue kind r → r.start ≤ r.stop

theorem Stream.value_le {kind : ValueKind} {r : Span} (h : Stream cs site ts)
    (ht : .attributeValue kind r ∈ ts) : r.start ≤ r.stop := by
  obtain ⟨before, after, rfl⟩ := List.append_of_mem ht
  obtain ⟨q, hq, -⟩ := h.exists_site
  obtain ⟨name, i, rfl⟩ := hq.exists_tag rfl
  cases hq with
  | attributeValue _ hle _ _ => exact hle

theorem tokens_fit (s : String) : ∀ t ∈ Document.tokens s, t.Fits s := by
  intro t ht
  refine ⟨tokensFrom_onEdges (isBoundary_markupStart s) t ht, ?_⟩
  rintro kind r rfl
  exact (tokensFrom_stream s _).value_le ht

namespace Node.OnEdges

/-- Nodes without tags. -/
theorem of_nil (hstart : n.startTagEnd = none) (hend : n.endTagStart = none)
    (hattributes : n.attributes = []) : n.OnEdges s := by
  constructor
  · rw [hstart]
    exact nofun
  · rw [hend]
    exact nofun
  · rw [hattributes]
    exact nofun

theorem endStartTag (h : n.OnEdges s) (hi : isBoundary s (i + 1) = true) :
    (Assembly.endStartTag i n).OnEdges s :=
  ⟨fun _ hj => Option.some.inj hj ▸ hi, h.endTagStart, h.values⟩

theorem addAttribute {x : Attribute} (h : n.OnEdges s) (hx : ∀ v ∈ x.value, v.Fits s) :
    Node.OnEdges s { n with attributes := n.attributes ++ [x] } :=
  ⟨h.startTagEnd, h.endTagStart,
    List.forall_mem_append.2 ⟨h.values, List.forall_mem_singleton.2 hx⟩⟩

theorem setValue {v : Value} (h : n.OnEdges s) (hv : v.Fits s) : Node.OnEdges s
    { n with attributes := n.attributes.modify k fun x => { x with value := some v } } := by
  refine ⟨h.startTagEnd, h.endTagStart, fun x hx => ?_⟩
  obtain ⟨j, hj⟩ := List.getElem?_of_mem hx
  rw [List.getElem?_modify] at hj
  obtain ⟨y, hy, rfl⟩ := Option.map_eq_some_iff.1 hj
  split_ifs
  · rintro w ⟨⟩
    exact hv
  · exact h.values y (List.mem_of_getElem? hy)

theorem setStop (h : n.OnEdges s) : Node.OnEdges s { n with span.stop := i } :=
  ⟨h.startTagEnd, h.endTagStart, h.values⟩

end Node.OnEdges

namespace Assembly

theorem Holds.attachLeaf (h : a.Holds (Node.OnEdges s)) (kind : NodeKind) (r : Span) :
    (a.attachLeaf kind r).Holds (Node.OnEdges s) := by
  unfold Assembly.attachLeaf
  split_ifs
  · exact h.attach (.of_nil rfl rfl rfl) nofun
  · exact h

theorem Holds.starting (h : a.Holds p) (hchange : ∀ n, p n → p (change n)) :
    ({ a with starting := a.starting.map change } : Assembly).Holds p := by
  unfold Holds at h ⊢
  rw [List.forall_mem_append] at h
  refine List.forall_mem_append.2 ⟨h.1, fun n hn => ?_⟩
  obtain ⟨m, hm, rfl⟩ := Option.map_eq_some_iff.1 (Option.mem_toList.1 hn)
  exact hchange m (h.2 m (Option.mem_toList.2 hm))

theorem Holds.closeTag (h : a.Holds (Node.OnEdges s)) {lt stop : ℕ} {r : Span}
    (hlt : isBoundary s lt = true) : (step s a (.closeTag lt r stop)).Holds (Node.OnEdges s) := by
  unfold Assembly.step
  dsimp only
  split
  next => split_ifs <;> exact h
  next inner _ =>
    exact (h.abandon (fun _ hn => hn.setStop) inner).close fun n hn =>
      ⟨hn.startTagEnd, fun i hi => Option.some.inj hi ▸ hlt, hn.values⟩

theorem Holds.openEnd (h : a.Holds (Node.OnEdges s)) (hi : isBoundary s (i + 1) = true) :
    (step s a (.openEnd i)).Holds (Node.OnEdges s) := by
  unfold Assembly.step
  dsimp only
  split
  next => exact h
  next n hstarting =>
    split_ifs
    · exact h.settle fun n hn => hn.endStartTag hi
    · unfold Holds at h ⊢
      rw [hstarting, List.forall_mem_append] at h
      rw [nodes_push]
      refine List.forall_mem_append.2 ⟨List.forall_mem_append.2 ⟨h.1, ?_⟩, nofun⟩
      exact List.forall_mem_singleton.2 ((h.2 n (List.mem_singleton.2 rfl)).endStartTag hi)

/-- **Steps.** Each token keeps the nodes on edges. -/
theorem Holds.step (h : a.Holds (Node.OnEdges s)) (ht : t.Fits s) :
    (step s a t).Holds (Node.OnEdges s) := by
  obtain ⟨hedges, hvalues⟩ := ht
  cases t with
  | text r | expression r | comment r | doctype r => exact h.attachLeaf _ r
  | error e => exact h
  | openName r =>
    have hsettled : (a.settle id).Holds (Node.OnEdges s) := h.settle fun _ => id
    unfold Holds at hsettled
    rw [List.forall_mem_append] at hsettled
    refine List.forall_mem_append.2 ⟨hsettled.1, fun n hn => ?_⟩
    obtain rfl := Option.some.inj (Option.mem_toList.1 hn)
    exact .of_nil rfl rfl rfl
  | openEnd i => exact h.openEnd (hedges (i + 1) (by simp [Token.edges]))
  | selfClose i =>
    have hi := hedges (i + 1) (by simp [Token.edges])
    exact h.settle fun n hn => hn.endStartTag hi
  | closeTag lt r stop => exact h.closeTag (hedges lt (by simp [Token.edges]))
  | attributeName r =>
    exact h.starting fun n hn => hn.addAttribute fun v hv => absurd hv (Option.not_mem_none v)
  | attributeValue kind r =>
    have hstart := hedges r.start (by simp [Token.edges])
    have hstop := hedges r.stop (by simp [Token.edges])
    exact h.starting fun n hn => hn.setValue fun _ => ⟨hvalues kind r rfl, hstart, hstop⟩
  | shorthand r =>
    refine h.starting fun n hn => hn.addAttribute ?_
    rintro v ⟨⟩ hkind
    exact absurd rfl hkind
  | finish =>
    have hsettled : (a.settle fun n => { n with span.stop := size s }).Holds (Node.OnEdges s) :=
      h.settle fun _ hn => hn.setStop
    exact hsettled.abandon (fun _ hn => hn.setStop) _

end Assembly

/-- **Edges.** The nodes of a document are on edges. -/
theorem nodes_onEdges (s : String) : ∀ n ∈ (Document.ofText s).forest.nodes, n.OnEdges s := by
  obtain ⟨errors, hforest⟩ := Document.exists_assembled s
  have hall : ((Document.tokens s).foldl (Assembly.step s) { errors }).Holds (Node.OnEdges s) :=
    List.foldlRecOn _ _ (fun _ hn => absurd hn List.not_mem_nil) fun a ha t ht =>
      ha.step (tokens_fit s t ht)
  rw [hforest]
  exact fun n hn => hall n (List.mem_append_left _ (List.mem_append_left _ hn))

/-! ## Regions -/

theorem frontMatter_fits {span : Span} (h : (FrontMatter.scan s).span? (Text.size s) = some span) :
    span.Fits s := by
  rcases hscan : FrontMatter.scan s with _ | start | ⟨start, stop⟩ <;> rw [hscan] at h <;> cases h
  · obtain ⟨a, inner, hs, ha⟩ := FrontMatter.scan_opened hscan
    rw [String.append_assoc] at hs
    have hstart : isBoundary s start = true := isBoundary_iff.2 ⟨a, _, hs, ha⟩
    exact ⟨le_size_of_isBoundary hstart, hstart, isBoundary_size s⟩
  · obtain ⟨a, inner, b, hs, ha, hstop⟩ := FrontMatter.scan_closed hscan
    have hsplit : s = a ++ ("---" ++ inner ++ "\n" ++ "---" ++ b) := by
      simpa only [String.append_assoc] using hs
    refine ⟨?_, isBoundary_iff.2 ⟨a, _, hsplit, ha⟩, isBoundary_iff.2 ⟨_, b, hs, hstop⟩⟩
    rw [← ha, ← hstop]
    simp only [String.append_assoc, size_append _ (_ ++ _)]
    exact Nat.le_add_right _ _

theorem styleRegion?_fits {e : ℕ × Node} (h : styleRegion? e = some r) (he : e.2.OnEdges s) :
    r.span.Fits s := by
  unfold styleRegion? at h
  obtain ⟨attr, hattr, h⟩ := Option.bind_eq_some_iff.1 h
  obtain ⟨v, hv, h⟩ := Option.bind_eq_some_iff.1 h
  have hvalue := he.values attr (List.mem_of_find?_eq_some hattr) v hv
  split at h
  case h_1 hkind | h_2 hkind =>
    obtain rfl := Option.some.inj h
    exact hvalue (by rw [hkind]; decide)
  all_goals cases h

theorem blockRegion?_fits {e : ℕ × Node} (h : blockRegion? e = some r)
    (he : e ∈ (Document.ofText s).elements) : r.span.Fits s := by
  unfold blockRegion? at h
  obtain ⟨kind, -, h⟩ := Option.bind_eq_some_iff.1 h
  obtain ⟨start, hstart, h⟩ := Option.bind_eq_some_iff.1 h
  obtain ⟨stop, hstop, h⟩ := Option.bind_eq_some_iff.1 h
  obtain rfl := Option.some.inj h
  have hedges := nodes_onEdges s e.2 (Forest.mem_nodes_of_mem_elements he).1
  obtain ⟨children, -, hwithin, -, -, -⟩ := (Document.within s).exists_children he hstart
  have hle := hwithin.le
  rw [show e.2.contentEnd = stop by rw [Node.contentEnd, hstop]; rfl] at hle
  exact ⟨hle, hedges.startTagEnd start hstart, hedges.endTagStart stop hstop⟩

/-- **Regions.** Every region of a document is a slice of it. -/
theorem exists_slice?_of_mem_regions (h : r ∈ (Document.ofText s).regions (Text.size s)) :
    ∃ content, r.span.slice? s = some content := by
  suffices hfits : r.span.Fits s from Span.exists_slice? hfits.1 hfits.2.1 hfits.2.2
  unfold Document.regions at h
  rcases List.mem_append.1 h with h | h
  · rcases List.mem_cons.1 h with rfl | h
    · exact ⟨Nat.zero_le _, isBoundary_zero s, isBoundary_size s⟩
    · obtain ⟨span, hspan, rfl⟩ := Option.map_eq_some_iff.1 (Option.mem_toList.1 h)
      exact frontMatter_fits hspan
  · obtain ⟨e, he, h⟩ := List.mem_flatMap.1 h
    rcases List.mem_append.1 h with h | h
    · exact blockRegion?_fits (Option.mem_toList.1 h) he
    · exact styleRegion?_fits (Option.mem_toList.1 h)
        (nodes_onEdges s e.2 (Forest.mem_nodes_of_mem_elements he).1)

end Polyglot.Markup
