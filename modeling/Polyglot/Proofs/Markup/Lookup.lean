import Polyglot.Proofs.Markup.Nesting
import Polyglot.Proofs.Markup.Numbering

/-!
# Lookup of elements

The descent to an offset takes the first sibling that holds it and never goes back. In a nested forest it
misses nothing: the elements around an offset lie inside each other (`Within.around_pairwise`), and those
around the answer are its parents (`Within.ancestors?_eq`). The parents that are listed are those to which
the links of the arena lead (`climbs_of_ancestors?`).
-/

namespace Polyglot.Markup

/-- The numbers to which the links of an arena lead, from the link to a parent up to a root. -/
inductive Climbs (links : List Numbered) : Option ℕ → List ℕ → Prop
  | top : Climbs links none []
  | up {p : ℕ} {n : Numbered} {above : List ℕ} : links[p]? = some n → Climbs links n.parent above →
      Climbs links (some p) (p :: above)

namespace Forest

variable {P : Node → Forest → Prop} {links : List Numbered} {parent : Option ℕ}
  {f : Forest} {e d : ℕ × Node} {before : List (ℕ × Node)} {above up : List ℕ} {i k lo hi : ℕ}

/-! ## Numbers of elements -/

/-- The elements of a forest are those of its nodes in the arena. -/
theorem Placed.mem_elements_iff (h : Placed links parent f i) : e ∈ f.elements i ↔
    (i ≤ e.1 ∧ e.1 < i + f.size) ∧ e.2.isElement = true ∧
      links[e.1]?.map Numbered.node = some e.2 := by
  induction f generalizing parent i with
  | nil =>
    rw [size]
    refine iff_of_false List.not_mem_nil ?_
    rintro ⟨hnumber, -⟩
    omega
  | cons node children rest ihc ihr =>
    obtain ⟨hnode, hchildren, hrest⟩ := h.cons
    rw [mem_elements_cons_iff, ihc hchildren, ihr hrest, size]
    constructor
    · rintro (⟨helem, rfl⟩ | ⟨hnumber, hnode⟩ | ⟨hnumber, hnode⟩)
      · exact ⟨⟨le_rfl, by dsimp only; omega⟩, helem, by rw [hnode]; rfl⟩
      · exact ⟨by omega, hnode⟩
      · exact ⟨by omega, hnode⟩
    · rintro ⟨⟨hle, hlt⟩, helem, he⟩
      rcases hle.eq_or_lt with heq | hne
      · rw [← heq, hnode] at he
        obtain rfl : node = e.2 := Option.some.inj he
        exact .inl ⟨helem, Prod.ext heq.symm rfl⟩
      · rcases Nat.lt_or_ge e.1 (i + 1 + children.size) with hin | hout
        · exact .inr (.inl ⟨⟨hne, hin⟩, helem, he⟩)
        · exact .inr (.inr ⟨⟨hout, by omega⟩, helem, he⟩)

/-! ## Parents -/

/-- The parents of a node that a forest lists, with those above the forest, are those to which the links
of the node lead. -/
theorem climbs_of_ancestors? (h : Placed links parent f i) (hup : f.ancestors? k i = some up)
    (habove : Climbs links parent above) :
    ∃ n, links[k]? = some n ∧ Climbs links n.parent (up ++ above) := by
  induction f generalizing parent i up above with
  | nil => cases hup
  | cons node children rest ihc ihr =>
    obtain ⟨hnode, hchildren, hrest⟩ := h.cons
    unfold ancestors? at hup
    split_ifs at hup with hk
    · cases hup
      exact ⟨_, hk ▸ hnode, habove⟩
    · obtain ⟨inner, hinner, rfl⟩ := Option.map_eq_some_iff.1 hup
      rw [List.append_assoc]
      exact ihc hchildren hinner (.up hnode habove)
    · exact ihr hrest hup habove

namespace Within

/-! ## Elements around an offset -/

/-- The elements around an offset lie inside each other, in the order of their numbers. -/
theorem around_pairwise (h : Within P lo hi f) (o i : ℕ) :
    (around o f i).Pairwise fun e d => e.1 < d.1 ∧ e.2.span.containsSpan d.2.span = true := by
  induction f generalizing lo hi i with
  | nil => exact .nil
  | cons node children rest ihc ihr =>
    obtain ⟨hrest, -, a, b, ha, hb, hchildren⟩ := h.parts
    rw [h.around_cons]
    split_ifs
    · refine List.pairwise_cons.2 ⟨fun d hd => ?_, ihc hchildren _⟩
      obtain ⟨hd, -⟩ := mem_around.1 hd
      have hbounds := hchildren.bounds hd
      refine ⟨(number_of_mem_elements hd).1, ?_⟩
      unfold Span.containsSpan
      rw [Bool.and_eq_true, decide_eq_true_eq, decide_eq_true_eq]
      exact ⟨ha.trans hbounds.1, hbounds.2.2.trans hb⟩
    · exact ihr hrest _

/-- The parents of the innermost element around an offset are the others around it, last first. -/
theorem ancestors?_eq {o : ℕ} (h : Within P lo hi f) (haround : around o f i = before ++ [d]) :
    f.ancestors? d.1 i = some (before.map Prod.fst).reverse := by
  induction f generalizing lo hi i before with
  | nil => cases before <;> cases haround
  | cons node children rest ihc ihr =>
    obtain ⟨hrest, -, a, b, -, -, hchildren⟩ := h.parts
    rw [h.around_cons] at haround
    unfold ancestors?
    split_ifs at haround
    · cases before with
      | nil =>
        obtain rfl := (List.cons.inj haround).1
        exact if_pos rfl
      | cons e before =>
        obtain ⟨rfl, htail⟩ : _ ∧ around o children (i + 1) = before ++ [d] :=
          List.cons.inj haround
        have hd : d ∈ around o children (i + 1) :=
          htail ▸ List.mem_append_right _ List.mem_cons_self
        have hnumber := number_of_mem_elements (mem_around.1 hd).1
        rw [if_neg (by omega), if_pos hnumber.2, ihc hchildren htail, List.map_cons,
          List.reverse_cons]
        rfl
    · have hd : d ∈ around o rest (i + 1 + children.size) :=
        haround ▸ List.mem_append_right _ List.mem_cons_self
      have hnumber := number_of_mem_elements (mem_around.1 hd).1
      rw [if_neg (by omega), if_neg (by omega)]
      exact ihr hrest haround

end Within

end Forest

/-! ## Documents -/

namespace Document

open Forest Within

variable {d : Document} {o k : ℕ} {e : ℕ × Node}

/-- Number `k` is that of an element whose span holds the byte at `o`. -/
def HoldsAt (d : Document) (o k : ℕ) : Prop :=
  ∃ n, d.nodes[k]? = some n ∧ n.node.isElement = true ∧ n.node.span.start ≤ o ∧ o < n.node.span.stop

theorem mem_around_iff : e ∈ around o d.forest 0 ↔
    ∃ n, d.nodes[e.1]? = some n ∧ n.node = e.2 ∧ e.2.isElement = true ∧
      e.2.span.start ≤ o ∧ o < e.2.span.stop := by
  rw [mem_around, (placed_numbered d.forest).mem_elements_iff, Span.containsByte_iff,
    Option.map_eq_some_iff]
  constructor
  · rintro ⟨⟨-, helem, n, hn, hnode⟩, ho⟩
    exact ⟨n, hn, hnode, helem, ho⟩
  · rintro ⟨n, hn, hnode, helem, ho⟩
    have hlt := (List.getElem?_eq_some_iff.1 hn).1
    unfold nodes at hlt
    rw [length_numbered] at hlt
    exact ⟨⟨⟨Nat.zero_le _, by omega⟩, helem, n, hn, hnode⟩, ho⟩

theorem holdsAt_iff :
    d.HoldsAt o k ↔ ∃ e ∈ around o d.forest 0, e.1 = k := by
  constructor
  · rintro ⟨n, hn, helem, ho⟩
    exact ⟨(k, n.node), mem_around_iff.2 ⟨n, hn, rfl, helem, ho⟩, rfl⟩
  · rintro ⟨e, he, rfl⟩
    obtain ⟨n, hn, hnode, helem, ho⟩ := mem_around_iff.1 he
    exact ⟨n, hn, hnode ▸ helem, hnode ▸ ho⟩

/-! ## The innermost element -/

variable {s : String} {before : List (ℕ × Node)} {i : ℕ} {node : Node}

theorem elementAt?_eq_getLast? (s : String) (o : ℕ) :
    (ofText s).elementAt? o = (around o (ofText s).forest 0).getLast? :=
  (Document.within s).elementAt?_eq o 0

theorem elementAt?_eq_none_iff :
    (ofText s).elementAt? o = none ↔ ∀ k, ¬ (ofText s).HoldsAt o k := by
  rw [elementAt?_eq_getLast?, List.getLast?_eq_none_iff, List.eq_nil_iff_forall_not_mem]
  constructor
  · intro h k hk
    obtain ⟨e, he, -⟩ := holdsAt_iff.1 hk
    exact h e he
  · intro h e he
    exact h e.1 (holdsAt_iff.2 ⟨e, he, rfl⟩)

theorem holdsAt_iff_of_around (h : around o d.forest 0 = before ++ [(i, node)]) :
    d.HoldsAt o k ↔ (∃ e ∈ before, e.1 = k) ∨ k = i := by
  rw [holdsAt_iff, h]
  simp [or_and_right, exists_or, eq_comm]

/-- What is around the innermost element has smaller numbers, and the last one is the nearest. -/
theorem before_pairwise (h : around o (ofText s).forest 0 = before ++ [(i, node)]) :
    (before.Pairwise fun e d => e.1 < d.1) ∧
      ∀ e ∈ before, e.1 < i ∧ e.2.span.containsSpan node.span = true := by
  have hpairwise := (Document.within s).around_pairwise o 0
  rw [h] at hpairwise
  obtain ⟨hordered, -, hinside⟩ := List.pairwise_append.1 hpairwise
  exact ⟨hordered.imp And.left, fun e he => hinside e he (i, node) List.mem_cons_self⟩

theorem ancestors?_of_around (h : around o (ofText s).forest 0 = before ++ [(i, node)]) :
    (ofText s).forest.ancestors? i 0 = some (before.map Prod.fst).reverse :=
  (Document.within s).ancestors?_eq h

theorem ancestors_of_around (h : around o (ofText s).forest 0 = before ++ [(i, node)]) :
    (ofText s).ancestors i = (before.map Prod.fst).reverse := by
  unfold ancestors
  rw [ancestors?_of_around h]
  rfl

theorem isGreatest_of_around (h : around o (ofText s).forest 0 = before ++ [(i, node)]) :
    IsGreatest {k | (ofText s).HoldsAt o k} i := by
  refine ⟨(holdsAt_iff_of_around h).2 (.inr rfl), fun k hk => ?_⟩
  rcases (holdsAt_iff_of_around h).1 hk with ⟨e, he, rfl⟩ | rfl
  · exact ((before_pairwise h).2 e he).1.le
  · exact le_rfl

/-- The links from the innermost element lead to its ancestors. -/
theorem climbs_of_around (h : around o (ofText s).forest 0 = before ++ [(i, node)]) :
    ∃ n, (ofText s).nodes[i]? = some n ∧ n.node = node ∧
      Climbs (ofText s).nodes n.parent ((ofText s).ancestors i) := by
  have hlast : (i, node) ∈ around o (ofText s).forest 0 :=
    h ▸ List.mem_append_right _ List.mem_cons_self
  obtain ⟨n, hn, hnode, -⟩ := mem_around_iff.1 hlast
  obtain ⟨m, hm, hclimbs⟩ :=
    climbs_of_ancestors? (placed_numbered (ofText s).forest) (ancestors?_of_around h) .top
  obtain rfl : n = m := Option.some.inj (hn.symm.trans hm)
  rw [List.append_nil, ← ancestors_of_around h] at hclimbs
  exact ⟨n, hn, hnode, hclimbs⟩

/-- All elements that hold an offset are around the innermost one. -/
theorem containsSpan_of_around {n : Numbered}
    (h : around o (ofText s).forest 0 = before ++ [(i, node)]) (hk : (ofText s).HoldsAt o k)
    (hn : (ofText s).nodes[k]? = some n) : n.node.span.containsSpan node.span = true := by
  obtain ⟨e, he, rfl⟩ := holdsAt_iff.1 hk
  obtain ⟨m, hm, hnode, -⟩ := mem_around_iff.1 he
  obtain rfl : n = m := Option.some.inj (hn.symm.trans hm)
  rw [hnode]
  rw [h] at he
  rcases List.mem_append.1 he with he | he
  · exact ((before_pairwise h).2 e he).2
  · obtain rfl := List.mem_singleton.1 he
    simp [Span.containsSpan]

theorem ancestors_pairwise (h : around o (ofText s).forest 0 = before ++ [(i, node)]) :
    ((ofText s).ancestors i).Pairwise (· > ·) := by
  rw [ancestors_of_around h, List.pairwise_reverse, List.pairwise_map]
  exact (before_pairwise h).1

theorem mem_ancestors_iff (h : around o (ofText s).forest 0 = before ++ [(i, node)]) :
    k ∈ (ofText s).ancestors i ↔ (ofText s).HoldsAt o k ∧ k ≠ i := by
  rw [ancestors_of_around h, List.mem_reverse, List.mem_map, holdsAt_iff_of_around h]
  constructor
  · rintro ⟨e, he, rfl⟩
    exact ⟨.inl ⟨e, he, rfl⟩, ((before_pairwise h).2 e he).1.ne⟩
  · rintro ⟨hk | rfl, hne⟩
    · exact hk
    · exact absurd rfl hne

/-- **Lookup.** An offset has no element if and only if none holds it. Otherwise the answer is the
element with the greatest number among those that hold it, and lies inside all of them. Its ancestors are
the others, last first, and those to which the links to the parents lead. -/
theorem elementAt?_holdsAt (s : String) (o : ℕ) :
    ((ofText s).elementAt? o = none ↔ ∀ k, ¬ (ofText s).HoldsAt o k) ∧
      ∀ i node, (ofText s).elementAt? o = some (i, node) →
        IsGreatest {k | (ofText s).HoldsAt o k} i ∧
        (∃ n, (ofText s).nodes[i]? = some n ∧ n.node = node ∧
          Climbs (ofText s).nodes n.parent ((ofText s).ancestors i)) ∧
        (∀ k n, (ofText s).HoldsAt o k → (ofText s).nodes[k]? = some n →
          n.node.span.containsSpan node.span = true) ∧
        ((ofText s).ancestors i).Pairwise (· > ·) ∧
        ∀ k, k ∈ (ofText s).ancestors i ↔ (ofText s).HoldsAt o k ∧ k ≠ i := by
  refine ⟨elementAt?_eq_none_iff, fun i node hat => ?_⟩
  rw [elementAt?_eq_getLast?] at hat
  obtain ⟨before, hbefore⟩ := List.getLast?_eq_some_iff.1 hat
  exact ⟨isGreatest_of_around hbefore, climbs_of_around hbefore,
    fun k n => containsSpan_of_around hbefore, ancestors_pairwise hbefore,
    fun k => mem_ancestors_iff hbefore⟩

end Document

end Polyglot.Markup
