import Polyglot.Proofs.Data.Assembly
import Polyglot.Proofs.Data.Order

/-!
# Nodes of data

The nodes of a tree in order, each in front of its parts; keys are nodes, too. In every document they nest:
each collection lies around its parts, the keys and scalars stand one behind the other, and the source of
each is what stands at its span (`Document.ofText_nested`).
-/

namespace Polyglot.Data

open Text

variable {s : String} {i j : ℕ} {t n : Tree} {pairs : List (Scalar × Tree)} {items : List Tree}

/-! ## Nodes -/

/-- The keys and values of a mapping, or the items of a sequence. -/
def Tree.parts : Tree → List Tree
  | .scalar _ => []
  | .mapping _ _ pairs => pairs.flatMap fun p => [.scalar p.1, p.2]
  | .sequence _ _ items => items

mutual

/-- All nodes of a tree, each in front of its parts. -/
def Tree.nodes : Tree → List Tree
  | .scalar x => [.scalar x]
  | .mapping flow r pairs => .mapping flow r pairs :: nodesOfPairs pairs
  | .sequence flow r items => .sequence flow r items :: nodesOfItems items

def nodesOfPairs : List (Scalar × Tree) → List Tree
  | [] => []
  | (key, value) :: rest => .scalar key :: (value.nodes ++ nodesOfPairs rest)

def nodesOfItems : List Tree → List Tree
  | [] => []
  | item :: rest => item.nodes ++ nodesOfItems rest

end

def Tree.scalar? : Tree → Option Scalar
  | .scalar x => some x
  | _ => none

/-- The keys and the scalar values of a tree, in order. -/
def Tree.scalars (t : Tree) : List Scalar := t.nodes.filterMap Tree.scalar?

theorem Tree.mem_scalars {x : Scalar} : x ∈ t.scalars ↔ .scalar x ∈ t.nodes := by
  rw [scalars, List.mem_filterMap]
  constructor
  · rintro ⟨n, hn, hx⟩
    cases n <;> cases hx
    exact hn
  · exact fun h => ⟨.scalar x, h, rfl⟩

mutual

theorem Tree.map_span_nodes : (t : Tree) → t.nodes.map Tree.span = t.spans
  | .scalar _ => rfl
  | .mapping _ _ pairs => by
    rw [Tree.nodes, Tree.spans, List.map_cons, map_span_nodesOfPairs pairs, Tree.span]
  | .sequence _ _ items => by
    rw [Tree.nodes, Tree.spans, List.map_cons, map_span_nodesOfItems items, Tree.span]

theorem map_span_nodesOfPairs : (pairs : List (Scalar × Tree)) →
    (nodesOfPairs pairs).map Tree.span = spansOfPairs pairs
  | [] => rfl
  | (key, value) :: rest => by
    rw [nodesOfPairs, spansOfPairs, List.map_cons, List.map_append, value.map_span_nodes,
      map_span_nodesOfPairs rest, Tree.span, List.cons_append]

theorem map_span_nodesOfItems : (items : List Tree) →
    (nodesOfItems items).map Tree.span = spansOfItems items
  | [] => rfl
  | item :: rest => by
    rw [nodesOfItems, spansOfItems, List.map_append, item.map_span_nodes, map_span_nodesOfItems rest]

end

mutual

theorem Tree.map_span_scalars : (t : Tree) → t.scalars.map Scalar.span = t.tokens
  | .scalar _ => rfl
  | .mapping _ _ pairs => by
    rw [Tree.scalars, Tree.nodes, List.filterMap_cons_none rfl, map_span_scalarsOfPairs pairs, Tree.tokens]
  | .sequence _ _ items => by
    rw [Tree.scalars, Tree.nodes, List.filterMap_cons_none rfl, map_span_scalarsOfItems items, Tree.tokens]

theorem map_span_scalarsOfPairs : (pairs : List (Scalar × Tree)) →
    ((nodesOfPairs pairs).filterMap Tree.scalar?).map Scalar.span = Tree.pairTokens pairs
  | [] => rfl
  | (key, value) :: rest => by
    rw [nodesOfPairs, Tree.pairTokens, List.filterMap_cons_some (f := Tree.scalar?) rfl, List.filterMap_append,
      List.map_cons, List.map_append, ← Tree.scalars, value.map_span_scalars,
      map_span_scalarsOfPairs rest, List.cons_append]

theorem map_span_scalarsOfItems : (items : List Tree) →
    ((nodesOfItems items).filterMap Tree.scalar?).map Scalar.span = Tree.itemTokens items
  | [] => rfl
  | item :: rest => by
    rw [nodesOfItems, Tree.itemTokens, List.filterMap_append, List.map_append, ← Tree.scalars,
      item.map_span_scalars, map_span_scalarsOfItems rest]

end

/-! ## Nesting -/

theorem containsSpan_iff {r q : Span} :
    r.containsSpan q = true ↔ r.start ≤ q.start ∧ q.stop ≤ r.stop := by
  simp only [Span.containsSpan, Bool.and_eq_true, decide_eq_true_eq]

theorem PairsLie.start_le (h : PairsLie i j pairs) :
    ∀ p ∈ pairs, i ≤ p.1.span.start ∧ i ≤ p.2.span.start := by
  induction pairs generalizing i with
  | nil => exact nofun
  | cons p rest ih =>
    rw [PairsLie] at h
    obtain ⟨hkey, hle, hvalue, hrest⟩ := h
    have hvalue := hvalue.le
    exact List.forall_mem_cons.2 ⟨⟨hkey, by omega⟩, ih (hrest.mono_left (by omega))⟩

theorem ItemsLie.start_le (h : ItemsLie i j items) : ∀ t ∈ items, i ≤ t.span.start := by
  induction items generalizing i with
  | nil => exact nofun
  | cons t rest ih =>
    rw [ItemsLie] at h
    have hitem := h.1.le
    exact List.forall_mem_cons.2 ⟨hitem.1, ih (h.2.mono_left (by omega))⟩

/-- A collection lies around its parts. -/
theorem Tree.LiesFrom.containsSpan (h : t.LiesFrom i) :
    ∀ part ∈ t.parts, t.span.containsSpan part.span = true := by
  cases t with
  | scalar x => exact nofun
  | mapping flow r pairs =>
    rw [LiesFrom] at h
    have hstart := h.2.start_le
    have hstop := h.2.stop_le
    intro part hpart
    obtain ⟨p, hp, hpart⟩ := List.mem_flatMap.1 hpart
    rcases List.mem_pair.1 hpart with rfl | rfl
    · exact containsSpan_iff.2 ⟨(hstart p hp).1, (hstop p hp).1⟩
    · exact containsSpan_iff.2 ⟨(hstart p hp).2, (hstop p hp).2⟩
  | sequence flow r items =>
    rw [LiesFrom] at h
    exact fun item hitem =>
      containsSpan_iff.2 ⟨h.2.start_le item hitem, h.2.stop_le item hitem⟩

mutual

theorem Tree.LiesFrom.of_mem_nodes : ∀ {i : ℕ} {t : Tree}, t.LiesFrom i → ∀ n ∈ t.nodes,
    ∃ j, n.LiesFrom j
  | i, .scalar x, h => by
    rw [Tree.nodes, List.forall_mem_singleton]
    exact ⟨i, h⟩
  | i, .mapping flow r pairs, h => by
    rw [Tree.nodes]
    refine List.forall_mem_cons.2 ⟨⟨i, h⟩, ?_⟩
    rw [Tree.LiesFrom] at h
    exact h.2.of_mem_nodes
  | i, .sequence flow r items, h => by
    rw [Tree.nodes]
    refine List.forall_mem_cons.2 ⟨⟨i, h⟩, ?_⟩
    rw [Tree.LiesFrom] at h
    exact h.2.of_mem_nodes

theorem PairsLie.of_mem_nodes : ∀ {i j : ℕ} {pairs : List (Scalar × Tree)}, PairsLie i j pairs →
    ∀ n ∈ nodesOfPairs pairs, ∃ j, n.LiesFrom j
  | _, _, [], _ => nofun
  | i, _, (key, value) :: rest, h => by
    rw [PairsLie] at h
    rw [nodesOfPairs]
    refine List.forall_mem_cons.2 ⟨⟨i, ?_⟩, List.forall_mem_append.2
      ⟨h.2.2.1.of_mem_nodes, h.2.2.2.of_mem_nodes⟩⟩
    rw [Tree.LiesFrom]
    exact ⟨h.1, h.2.1⟩

theorem ItemsLie.of_mem_nodes : ∀ {i j : ℕ} {items : List Tree}, ItemsLie i j items →
    ∀ n ∈ nodesOfItems items, ∃ j, n.LiesFrom j
  | _, _, [], _ => nofun
  | _, _, item :: rest, h => by
    rw [ItemsLie] at h
    rw [nodesOfItems]
    exact List.forall_mem_append.2 ⟨h.1.of_mem_nodes, h.2.of_mem_nodes⟩

end

/-! ## Sources -/

/-- Between two boundaries the source of a token is what stands there; a missing scalar has an empty one. -/
theorem Scalar.IsToken.slice?_eq {x : Scalar} (h : x.IsToken s) (hfits : x.span.Fits s) :
    x.span.slice? s = some x.source := by
  rcases h with h | h
  · obtain ⟨a, b, rfl, hsize⟩ := isBoundary_iff.1 hfits.2.1
    rw [h]
    exact Span.slice?_eq_some_iff.2 ⟨a, b, by rw [missing, String.append_empty], hsize, by
      rw [missing, String.append_empty]; exact hsize⟩
  · exact h

mutual

theorem Tree.Assembled.isToken : ∀ {t : Tree} {errors : List Error}, t.Assembled s errors →
    ∀ x, .scalar x ∈ t.nodes → x.IsToken s
  | _, _, .scalar hx _ => by
    intro y hy
    obtain rfl := Tree.scalar.inj (List.mem_singleton.1 hy)
    exact hx
  | _, _, .mapping hpairs => by
    intro x hx
    rw [Tree.nodes] at hx
    exact hpairs.isToken x ((List.mem_cons.1 hx).resolve_left nofun)
  | _, _, .sequence hitems => by
    intro x hx
    rw [Tree.nodes] at hx
    exact hitems.isToken x ((List.mem_cons.1 hx).resolve_left nofun)
  | _, _, .trailing ht _ => ht.isToken

theorem PairsAssembled.isToken : ∀ {seen : List String} {pairs : List (Scalar × Tree)}
    {errors : List Error}, PairsAssembled s seen pairs errors →
    ∀ x, .scalar x ∈ nodesOfPairs pairs → x.IsToken s
  | _, _, _, .nil _ => fun _ hx => absurd hx List.not_mem_nil
  | _, _, _, .error _ hpairs => hpairs.isToken
  | _, _, _, .cons hkey _ hvalue _ hpairs => by
    intro x hx
    rw [nodesOfPairs] at hx
    rcases List.mem_cons.1 hx with heq | hx
    · obtain rfl := Tree.scalar.inj heq
      exact hkey
    · exact (List.mem_append.1 hx).elim (hvalue.isToken x) (hpairs.isToken x)

theorem ItemsAssembled.isToken : ∀ {items : List Tree} {errors : List Error},
    ItemsAssembled s items errors → ∀ x, .scalar x ∈ nodesOfItems items → x.IsToken s
  | _, _, .nil _ => fun _ hx => absurd hx List.not_mem_nil
  | _, _, .error _ hitems => hitems.isToken
  | _, _, .cons hitem _ hitems => by
    intro x hx
    rw [nodesOfItems] at hx
    exact (List.mem_append.1 hx).elim (hitem.isToken x) (hitems.isToken x)

end

/-! ## Documents -/

/-- The tree of a document, whatever its errors are. -/
theorem Document.assembled_of_mem {d : Document} (h : Document.ofText s = .ok d) {root : Tree}
    (hroot : root ∈ d.root) : ∃ errors, root.Assembled s errors := by
  obtain ⟨-, errors, -, -, -, -, ⟨hnone, -⟩ | ⟨root', hroot', hassembled⟩⟩ := ofText_assembled h
  · rw [hnone] at hroot
    cases hroot
  · obtain rfl : root' = root := Option.some.inj (hroot'.symm.trans hroot)
    exact ⟨errors, hassembled⟩

/-- Every node lies in the text. -/
theorem Document.fits_of_mem {d : Document} (h : Document.ofText s = .ok d) {root : Tree}
    (hroot : root ∈ d.root) (hn : n ∈ root.nodes) : n.span.Fits s := by
  have hreads := ofText_reads s
  rw [h] at hreads
  have hspan : n.span ∈ root.spans := root.map_span_nodes ▸ List.mem_map_of_mem hn
  refine hreads n.span (List.mem_append_left _ ?_)
  rw [Option.mem_def.1 hroot]
  exact hspan

/-- **Nodes.** Every node of a document lies in the text and around its parts, the source of each key and
scalar is what stands at its span, and each ends in front of those behind it. -/
theorem Document.ofText_nested {d : Document} (h : Document.ofText s = .ok d) :
    ∀ root ∈ d.root,
      (∀ n ∈ root.nodes, n.span.start ≤ n.span.stop ∧ n.span.stop ≤ size s ∧
        ∀ part ∈ n.parts, n.span.containsSpan part.span = true) ∧
      (∀ x ∈ root.scalars, x.span.slice? s = some x.source) ∧
      root.scalars.Pairwise fun x y => x.span.stop ≤ y.span.start := by
  intro root hroot
  have hlies := ofText_lies h root hroot
  obtain ⟨errors, hassembled⟩ := assembled_of_mem h hroot
  refine ⟨fun n hn => ?_, fun x hx => ?_, ?_⟩
  · obtain ⟨hle, -, hstop⟩ := fits_of_mem h hroot hn
    obtain ⟨j, hj⟩ := hlies.of_mem_nodes n hn
    exact ⟨hle, le_size_of_isBoundary hstop, hj.containsSpan⟩
  · rw [Tree.mem_scalars] at hx
    exact (hassembled.isToken x hx).slice?_eq (fits_of_mem h hroot hx)
  · have hpairwise := hlies.inOrder.pairwise.2
    rw [← root.map_span_scalars] at hpairwise
    exact List.pairwise_map.1 hpairwise

/-- A string and a collection that end with their line, and an item among keys. -/
def unfinishedCollection : String := "k: [a, 'b\nc: |\n  d\n- e\n"

theorem Document.ofText_nested_unfinishedCollection : ∃ d root,
    Document.ofText unfinishedCollection = .ok d ∧ d.isValid = false ∧ d.root = some root ∧
      (∀ n ∈ root.nodes, n.span.start ≤ n.span.stop ∧ n.span.stop ≤ size unfinishedCollection ∧
        ∀ part ∈ n.parts, n.span.containsSpan part.span = true) ∧
      (∀ x ∈ root.scalars, x.span.slice? unfinishedCollection = some x.source) ∧
      root.scalars.Pairwise fun x y => x.span.stop ≤ y.span.start := by
  have hread : ((Document.ofText unfinishedCollection).toOption.any fun d =>
      !d.isValid && d.root.isSome) = true := by
    decide +kernel
  obtain ⟨d, hd, hread⟩ := exists_of_any_toOption hread
  obtain ⟨hvalid, hroot⟩ := Bool.and_eq_true_iff.1 hread
  obtain ⟨root, hroot⟩ := Option.isSome_iff_exists.1 hroot
  exact ⟨d, root, hd, by simpa using hvalid, hroot, ofText_nested hd root hroot⟩

end Polyglot.Data
