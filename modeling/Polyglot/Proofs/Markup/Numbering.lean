import Polyglot.Proofs.Markup.Forest
import Polyglot.Proofs.Text.Spans

/-!
# Numbers of nodes

Where a forest stands in an arena, the arena holds its nodes from some number on (`Forest.Placed`). The
links then list each number once (`perm_numbered`), lead from a node to what is below it (`Placed.root`,
`Placed.entry`), and their traversal counts upwards (`Placed.visits`).
-/

namespace Polyglot.Markup

/-- The traversal of an arena from a list of nodes on: each node, then what its children lead to, then
what the later ones do. -/
inductive Visits (links : List Numbered) : List ℕ → List ℕ → Prop
  | nil : Visits links [] []
  | cons {i : ℕ} {n : Numbered} {ids below after : List ℕ} : links[i]? = some n →
      Visits links n.children below → Visits links ids after →
      Visits links (i :: ids) (i :: (below ++ after))

/-- The spans of the nodes with these numbers. -/
def spansOf (links : List Numbered) (ids : List ℕ) : List Span :=
  ids.filterMap fun k => links[k]?.map fun n => n.node.span

/-- A node that no end tag closes, neither its own nor that of a node around it. -/
inductive Unclosed (links : List Numbered) : ℕ → Prop
  | root {i : ℕ} {n : Numbered} : links[i]? = some n → n.parent = none →
      n.node.endTagStart = none → Unclosed links i
  | child {p i : ℕ} {n : Numbered} : Unclosed links p → links[i]? = some n → n.parent = some p →
      n.node.endTagStart = none → Unclosed links i

namespace Forest

variable {P : Node → Forest → Prop} {Q : Node → Prop} {links : List Numbered} {parent : Option ℕ}
  {f children rest below : Forest} {node n : Node} {i k lo hi : ℕ}

@[simp] theorem length_numbered : (f.numbered parent i).length = f.size := by
  induction f generalizing parent i with
  | nil => rfl
  | cons node children rest ihc ihr => simp [numbered, size, ihc, ihr]; omega

theorem map_node_numbered : (f.numbered parent i).map Numbered.node = f.nodes := by
  induction f generalizing parent i with
  | nil => rfl
  | cons node children rest ihc ihr => simp [numbered, nodes, ihc, ihr]

theorem le_of_mem_rootNumbers (h : k ∈ f.rootNumbers i) : i ≤ k := by
  induction f generalizing i with
  | nil => cases h
  | cons node children rest _ ihr =>
    rcases List.mem_cons.1 h with rfl | h
    · exact le_rfl
    · have := ihr h
      omega

/-- The numbers from `i` on: a node, those below it, and those behind. -/
theorem range'_cons (node : Node) : List.range' i (cons node children rest).size =
    i :: (List.range' (i + 1) children.size ++
      List.range' (i + 1 + children.size) rest.size) := by
  have happend := @List.range'_append (i + 1) children.size rest.size 1
  rw [Nat.one_mul] at happend
  rw [happend, size, Nat.add_assoc, Nat.add_comm 1, List.range'_succ]

/-- The roots and the children of all nodes are all numbers, each once. -/
theorem perm_numbered : (f.rootNumbers i ++ (f.numbered parent i).flatMap (·.children)).Perm
    (List.range' i f.size) := by
  induction f generalizing parent i with
  | nil => exact .nil
  | cons node children rest ihc ihr =>
    rw [range'_cons, rootNumbers, numbered, List.flatMap_cons, List.flatMap_append]
    refine .cons i (.trans ?_ ((@ihc (some i) _).append (@ihr parent _)))
    rw [← List.append_assoc (children.rootNumbers (i + 1))]
    exact List.perm_append_comm_assoc ..

/-! ## Places in an arena -/

/-- The nodes of a forest stand in an arena from number `i` on, its roots under `parent`. -/
def Placed (links : List Numbered) (parent : Option ℕ) (f : Forest) (i : ℕ) : Prop :=
  f.numbered parent i <+: links.drop i

theorem placed_numbered (f : Forest) : Placed (f.numbered none 0) none f 0 := List.prefix_refl _

theorem Placed.cons (h : Placed links parent (cons node children rest) i) :
    links[i]? = some ⟨node, parent, children.rootNumbers (i + 1)⟩ ∧
      Placed links (some i) children (i + 1) ∧
      Placed links parent rest (i + 1 + children.size) := by
  obtain ⟨after, h⟩ := h
  rw [numbered, List.cons_append, List.append_assoc] at h
  have hget : links[i]? = (links.drop i)[0]? := by rw [List.getElem?_drop, Nat.add_zero]
  have hchildren : links.drop (i + 1) = children.numbered (some i) (i + 1) ++
      (rest.numbered parent (i + 1 + children.size) ++ after) := by
    rw [← List.drop_drop, ← h]
    rfl
  refine ⟨by rw [hget, ← h]; rfl, ⟨_, hchildren.symm⟩, after, ?_⟩
  rw [← List.drop_drop, hchildren, List.drop_left' length_numbered]

theorem Placed.visits (h : Placed links parent f i) :
    Visits links (f.rootNumbers i) (List.range' i f.size) := by
  induction f generalizing parent i with
  | nil => exact .nil
  | cons node children rest ihc ihr =>
    obtain ⟨hnode, hchildren, hrest⟩ := h.cons
    rw [range'_cons]
    exact .cons hnode (ihc hchildren) (ihr hrest)

/-- A root of a forest, with what is below it. -/
inductive HasRoot : Forest → Node → Forest → Prop
  | head {n : Node} {below rest : Forest} : HasRoot (.cons n below rest) n below
  | tail {n node : Node} {below children rest : Forest} : HasRoot rest n below →
      HasRoot (.cons node children rest) n below

/-- A node of a forest, with what is below it. -/
inductive Holds : Forest → Node → Forest → Prop
  | head {n : Node} {below rest : Forest} : Holds (.cons n below rest) n below
  | child {n node : Node} {below children rest : Forest} : Holds children n below →
      Holds (.cons node children rest) n below
  | tail {n node : Node} {below children rest : Forest} : Holds rest n below →
      Holds (.cons node children rest) n below

theorem Holds.mem_nodes (h : f.Holds n below) : n ∈ f.nodes := by
  induction h with
  | head => exact List.mem_cons_self
  | child _ ih => exact List.mem_cons_of_mem _ (List.mem_append_left _ ih)
  | tail _ ih => exact List.mem_cons_of_mem _ (List.mem_append_right _ ih)

/-- What a root's number leads to. -/
theorem Placed.root (h : Placed links parent f i) (hk : k ∈ f.rootNumbers i) :
    ∃ n below, f.HasRoot n below ∧ links[k]? = some ⟨n, parent, below.rootNumbers (k + 1)⟩ ∧
      Placed links (some k) below (k + 1) := by
  induction f generalizing i with
  | nil => cases hk
  | cons node children rest _ ihr =>
    obtain ⟨hnode, hchildren, hrest⟩ := h.cons
    rcases List.mem_cons.1 hk with rfl | hk
    · exact ⟨node, children, .head, hnode, hchildren⟩
    · obtain ⟨n, below, hroot, hn, hbelow⟩ := ihr hrest hk
      exact ⟨n, below, .tail hroot, hn, hbelow⟩

/-- What a number leads to. -/
theorem Placed.entry (h : Placed links parent f i) (hle : i ≤ k) (hlt : k < i + f.size) :
    ∃ n parent' below, f.Holds n below ∧
      links[k]? = some ⟨n, parent', below.rootNumbers (k + 1)⟩ ∧
      Placed links (some k) below (k + 1) := by
  induction f generalizing parent i with
  | nil =>
    rw [size] at hlt
    omega
  | cons node children rest ihc ihr =>
    obtain ⟨hnode, hchildren, hrest⟩ := h.cons
    rw [size] at hlt
    rcases hle.eq_or_lt with rfl | hne
    · exact ⟨node, parent, children, .head, hnode, hchildren⟩
    · rcases Nat.lt_or_ge k (i + 1 + children.size) with hin | hout
      · obtain ⟨n, parent', below, hholds, hn, hbelow⟩ := ihc hchildren hne hin
        exact ⟨n, parent', below, .child hholds, hn, hbelow⟩
      · obtain ⟨n, parent', below, hholds, hn, hbelow⟩ := ihr hrest hout (by omega)
        exact ⟨n, parent', below, .tail hholds, hn, hbelow⟩

/-! ## Links -/

theorem getElem?_of_mem_rootNumbers (hi : i ∈ f.rootNumbers 0) :
    ∃ n, (f.numbered none 0)[i]? = some n ∧ n.parent = none := by
  obtain ⟨n, below, -, hn, -⟩ := (placed_numbered f).root hi
  exact ⟨_, hn, rfl⟩

theorem exists_of_getElem?_numbered {m : Numbered} (h : (f.numbered none 0)[k]? = some m) :
    ∃ below, f.Holds m.node below ∧ m.children = below.rootNumbers (k + 1) ∧
      Placed (f.numbered none 0) (some k) below (k + 1) := by
  have hk := (List.getElem?_eq_some_iff.1 h).1
  rw [length_numbered] at hk
  obtain ⟨n, parent, below, hholds, hn, hbelow⟩ :=
    (placed_numbered f).entry (Nat.zero_le k) (by omega)
  obtain rfl : _ = m := Option.some.inj (hn.symm.trans h)
  exact ⟨below, hholds, rfl, hbelow⟩

theorem getElem?_of_mem_children {m : Numbered} (h : (f.numbered none 0)[k]? = some m)
    (hi : i ∈ m.children) : k < i ∧ ∃ n, (f.numbered none 0)[i]? = some n ∧ n.parent = some k := by
  obtain ⟨below, -, hchildren, hbelow⟩ := exists_of_getElem?_numbered h
  rw [hchildren] at hi
  obtain ⟨n, below', -, hn, -⟩ := hbelow.root hi
  exact ⟨le_of_mem_rootNumbers hi, _, hn, rfl⟩

/-- A node is listed where its parent says. -/
theorem listed {n : Numbered} (h : (f.numbered none 0)[i]? = some n) :
    (n.parent = none ↔ i ∈ f.rootNumbers 0) ∧ ∀ p, n.parent = some p ↔
      ∃ m, (f.numbered none 0)[p]? = some m ∧ i ∈ m.children := by
  have hroot (hi : i ∈ f.rootNumbers 0) : n.parent = none := by
    obtain ⟨n', hn', hparent⟩ := getElem?_of_mem_rootNumbers hi
    rw [h] at hn'
    exact Option.some.inj hn' ▸ hparent
  have hchild {p : ℕ} {m : Numbered} (hm : (f.numbered none 0)[p]? = some m)
      (hi : i ∈ m.children) : n.parent = some p := by
    obtain ⟨-, n', hn', hparent⟩ := getElem?_of_mem_children hm hi
    rw [h] at hn'
    exact Option.some.inj hn' ▸ hparent
  have hi := (List.getElem?_eq_some_iff.1 h).1
  rw [length_numbered] at hi
  have hmem : i ∈ f.rootNumbers 0 ++ (f.numbered none 0).flatMap (·.children) :=
    perm_numbered.symm.mem_iff.1 (List.mem_range'_1.2 ⟨Nat.zero_le i, by omega⟩)
  rcases List.mem_append.1 hmem with hmem | hmem
  · have hparent := hroot hmem
    refine ⟨⟨fun _ => hmem, fun _ => hparent⟩, fun p => ⟨fun hp => ?_, fun ⟨m, hm, hi⟩ => hchild hm hi⟩⟩
    rw [hparent] at hp
    cases hp
  · obtain ⟨m, hm, hi⟩ := List.mem_flatMap.1 hmem
    obtain ⟨p, hp⟩ := List.mem_iff_getElem?.1 hm
    have hparent := hchild hp hi
    refine ⟨⟨fun hnone => ?_, hroot⟩, fun q => ⟨fun hq => ?_, fun ⟨m, hm, hi⟩ => hchild hm hi⟩⟩
    · rw [hparent] at hnone
      cases hnone
    · rw [hparent] at hq
      cases hq
      exact ⟨m, hp, hi⟩

/-! ## Spans of siblings -/

/-- The spans of the roots. -/
def rootSpans : Forest → List Span
  | nil => []
  | cons node _ rest => node.span :: rest.rootSpans

theorem Placed.spansOf (h : Placed links parent f i) :
    spansOf links (f.rootNumbers i) = f.rootSpans := by
  unfold Markup.spansOf
  induction f generalizing i with
  | nil => rfl
  | cons node children rest _ ihr =>
    obtain ⟨hnode, -, hrest⟩ := h.cons
    rw [rootNumbers, List.filterMap_cons, hnode, ihr hrest]
    rfl

theorem Within.inOrder (h : Within P lo hi f) : InOrder lo hi f.rootSpans := by
  induction h with
  | nil hle => exact .nil hle
  | leaf hlo hlt _ _ _ ih => exact .cons hlo hlt.le ih
  | block hlo _ _ hlt hend _ hchildren _ _ ih =>
    have hcontent := Node.contentEnd_le hend
    have hle := hchildren.le
    exact .cons hlo (by omega) ih

/-- Each node of a nested forest lies in it, and holds its children between its start tag and its end tag. -/
theorem Within.of_holds (h : Within P lo hi f) (hn : f.Holds n below) :
    (lo ≤ n.span.start ∧ n.span.start < n.span.stop ∧ n.span.stop ≤ hi) ∧
      ((n.startTagEnd = none ∧ below = .nil) ∨
        ∃ a, n.startTagEnd = some a ∧ n.span.start < a ∧ n.contentEnd ≤ n.span.stop ∧
          Within P a n.contentEnd below) := by
  induction h with
  | nil _ => cases hn
  | leaf hlo hlt hstart _ hrest ih =>
    have hle := hrest.le
    cases hn with
    | head => exact ⟨⟨hlo, hlt, hle⟩, .inl ⟨hstart, rfl⟩⟩
    | child hn => cases hn
    | tail hn =>
      obtain ⟨hbounds, hbelow⟩ := ih hn
      exact ⟨by omega, hbelow⟩
  | block hlo helem hstart hlt hend _ hchildren hrest ihc ihr =>
    have hcontent := Node.contentEnd_le hend
    have hle := hchildren.le
    have hle' := hrest.le
    cases hn with
    | head => exact ⟨by omega, .inr ⟨_, hstart, hlt, hcontent, hchildren⟩⟩
    | child hn =>
      obtain ⟨hbounds, hbelow⟩ := ihc hn
      exact ⟨by omega, hbelow⟩
    | tail hn =>
      obtain ⟨hbounds, hbelow⟩ := ihr hn
      exact ⟨by omega, hbelow⟩

/-! ## Nodes without an end tag -/

/-- `Q` holds of each node that no end tag closes, neither its own nor that of a node around it. -/
def Ends (Q : Node → Prop) : Forest → Prop
  | nil => True
  | cons node children rest => (node.endTagStart = none → Q node ∧ children.Ends Q) ∧ rest.Ends Q

theorem Ends.of_hasRoot (h : f.Ends Q) (hroot : f.HasRoot n below) (hn : n.endTagStart = none) :
    Q n ∧ below.Ends Q := by
  induction hroot with
  | head => exact h.1 hn
  | tail _ ih => exact ih h.2 hn

/-- What no end tag closes ends as the forest says. -/
theorem Ends.of_unclosed (h : f.Ends Q) (hi : Unclosed (f.numbered none 0) i) :
    ∃ n, (f.numbered none 0)[i]? = some n ∧ Q n.node := by
  suffices ∃ n below, (f.numbered none 0)[i]? = some n ∧ n.children = below.rootNumbers (i + 1) ∧
      Placed (f.numbered none 0) (some i) below (i + 1) ∧ Q n.node ∧ below.Ends Q by
    obtain ⟨n, below, hn, -, -, hQ, -⟩ := this
    exact ⟨n, hn, hQ⟩
  induction hi with
  | @root i n hn hparent hend =>
    obtain ⟨m, below, hroot, hm, hbelow⟩ := (placed_numbered f).root ((listed hn).1.1 hparent)
    obtain rfl : _ = n := Option.some.inj (hm.symm.trans hn)
    obtain ⟨hQ, hends⟩ := h.of_hasRoot hroot hend
    exact ⟨_, below, hn, rfl, hbelow, hQ, hends⟩
  | @child p i n _ hn hparent hend ih =>
    obtain ⟨m, around, hm, hchildren, hplaced, -, hends⟩ := ih
    obtain ⟨m', hm', hi⟩ := ((listed hn).2 p).1 hparent
    obtain rfl : m = m' := Option.some.inj (hm.symm.trans hm')
    rw [hchildren] at hi
    obtain ⟨m', below, hroot, hm', hbelow⟩ := hplaced.root hi
    obtain rfl : _ = n := Option.some.inj (hm'.symm.trans hn)
    obtain ⟨hQ, hends⟩ := hends.of_hasRoot hroot hend
    exact ⟨_, below, hn, rfl, hbelow, hQ, hends⟩

theorem ends_prependReversed {siblings : List (Node × Forest)}
    (h : ∀ x ∈ siblings, (cons x.1 x.2 .nil).Ends Q) (hf : f.Ends Q) :
    (prependReversed siblings f).Ends Q := by
  induction siblings generalizing f with
  | nil => exact hf
  | cons x earlier ih =>
    obtain ⟨hx, hearlier⟩ := List.forall_mem_cons.1 h
    exact ih hearlier ⟨hx.1, hf⟩

end Forest

end Polyglot.Markup
