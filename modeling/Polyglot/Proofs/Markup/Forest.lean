import Mathlib
import Polyglot.Markup.Node

/-!
# Nested forests

In a nested forest siblings come one behind the other, and children lie in the content of their parent
(`Forest.Within`). Pre-order then is the order of the starts (`elements_pairwise`), and the descent to an
offset ends at the last element in pre-order that holds it (`elementAt?_eq`).
-/

namespace Polyglot.Markup

/-- Where the content of an element ends. -/
def Node.contentEnd (n : Node) : ℕ := n.endTagStart.getD n.span.stop

/-- Siblings one behind the other from `lo` on and up to `hi`, their children in their contents, and each
node with its children such as `P` says. -/
inductive Forest.Within (P : Node → Forest → Prop) : ℕ → ℕ → Forest → Prop
  | nil {lo hi} : lo ≤ hi → Within P lo hi .nil
  | leaf {lo hi node rest} : lo ≤ node.span.start → node.span.start < node.span.stop →
      node.startTagEnd = none → P node .nil → Within P node.span.stop hi rest →
      Within P lo hi (.cons node .nil rest)
  | block {lo hi a node children rest} : lo ≤ node.span.start → node.isElement = true →
      node.startTagEnd = some a → node.span.start < a → (∀ b ∈ node.endTagStart, b < node.span.stop) →
      P node children → Within P a node.contentEnd children → Within P node.span.stop hi rest →
      Within P lo hi (.cons node children rest)

theorem Node.contentEnd_le {n : Node} (h : ∀ b ∈ n.endTagStart, b < n.span.stop) :
    n.contentEnd ≤ n.span.stop := by
  unfold contentEnd
  rcases hend : n.endTagStart with _ | b
  · exact le_rfl
  · exact (h b hend).le

namespace Forest

variable {P : Node → Forest → Prop} {lo lo' hi i k o : ℕ} {f children rest : Forest} {node : Node}
  {d e : ℕ × Node}

/-! ## Elements in pre-order -/

theorem elements_cons : (cons node children rest).elements i =
    if node.isElement then
      (i, node) :: (children.elements (i + 1) ++ rest.elements (i + 1 + children.size))
    else children.elements (i + 1) ++ rest.elements (i + 1 + children.size) := rfl

theorem mem_nodes_of_mem_elements (h : e ∈ f.elements i) :
    e.2 ∈ f.nodes ∧ e.2.isElement = true := by
  induction f generalizing i with
  | nil => cases h
  | cons node children rest ihc ihr =>
    have hinner (h : e ∈ children.elements (i + 1) ++ rest.elements (i + 1 + children.size)) :
        e.2 ∈ (cons node children rest).nodes ∧ e.2.isElement = true := by
      rcases List.mem_append.1 h with h | h
      · exact ⟨List.mem_cons_of_mem _ (List.mem_append_left _ (ihc h).1), (ihc h).2⟩
      · exact ⟨List.mem_cons_of_mem _ (List.mem_append_right _ (ihr h).1), (ihr h).2⟩
    rw [elements_cons] at h
    split_ifs at h with hnode
    · rcases List.mem_cons.1 h with rfl | h
      · exact ⟨List.mem_cons_self, hnode⟩
      · exact hinner h
    · exact hinner h

theorem mem_elements_cons_iff : e ∈ (cons node children rest).elements i ↔
    (node.isElement = true ∧ e = (i, node)) ∨ e ∈ children.elements (i + 1) ∨
      e ∈ rest.elements (i + 1 + children.size) := by
  rw [elements_cons]
  split_ifs with hnode
  · rw [List.mem_cons, List.mem_append, and_iff_right hnode]
  · rw [List.mem_append]
    exact (or_iff_right fun h => hnode h.1).symm

theorem mem_elements_cons (h : e ∈ (cons node children rest).elements i) :
    e = (i, node) ∨ e ∈ children.elements (i + 1) ∨ e ∈ rest.elements (i + 1 + children.size) :=
  (mem_elements_cons_iff.1 h).imp_left And.right

theorem number_of_mem_elements (h : e ∈ f.elements i) : i ≤ e.1 ∧ e.1 < i + f.size := by
  induction f generalizing i with
  | nil => cases h
  | cons node children rest ihc ihr =>
    rw [size]
    rcases mem_elements_cons h with rfl | h | h
    · dsimp only
      omega
    · have hnumber := ihc h
      omega
    · have hnumber := ihr h
      omega

namespace Within

/-! ## Bounds -/

theorem le (h : Within P lo hi f) : lo ≤ hi := by
  induction h with
  | nil hle => exact hle
  | leaf hlo hlt _ _ _ ih => exact hlo.trans (hlt.le.trans ih)
  | block hlo _ _ hlt hend _ _ _ ihc ihr =>
    have hcontent := Node.contentEnd_le hend
    omega

theorem mono (h : Within P lo hi f) (hle : lo' ≤ lo) : Within P lo' hi f := by
  cases h with
  | nil hlo => exact .nil (hle.trans hlo)
  | leaf hlo hlt hstart hP hrest => exact .leaf (hle.trans hlo) hlt hstart hP hrest
  | block hlo helem hstart hlt hend hP hchildren hrest =>
    exact .block (hle.trans hlo) helem hstart hlt hend hP hchildren hrest

/-- The elements of a nested forest are not empty and lie between its bounds. -/
theorem bounds (h : Within P lo hi f) (he : e ∈ f.elements i) :
    lo ≤ e.2.span.start ∧ e.2.span.start < e.2.span.stop ∧ e.2.span.stop ≤ hi := by
  induction h generalizing i with
  | nil _ => cases he
  | leaf hlo hlt _ _ hrest ih =>
    rcases mem_elements_cons he with rfl | he | he
    · exact ⟨hlo, hlt, hrest.le⟩
    · cases he
    · obtain ⟨hstart, hspan, hstop⟩ := ih he
      exact ⟨hlo.trans (hlt.le.trans hstart), hspan, hstop⟩
  | block hlo _ _ hlt hend _ hchildren hrest ihc ihr =>
    have hcontent := Node.contentEnd_le hend
    have hle := hchildren.le
    have hle' := hrest.le
    rcases mem_elements_cons he with rfl | he | he
    · dsimp only
      omega
    · obtain ⟨hstart, hspan, hstop⟩ := ihc he
      omega
    · obtain ⟨hstart, hspan, hstop⟩ := ihr he
      omega

/-- Each element is such as the forest says, with some children. -/
theorem exists_of_mem (h : Within P lo hi f) (he : e ∈ f.elements i) :
    ∃ children, P e.2 children := by
  induction h generalizing i with
  | nil _ => cases he
  | leaf _ _ _ hP _ ih =>
    rcases mem_elements_cons he with rfl | he | he
    · exact ⟨_, hP⟩
    · cases he
    · exact ih he
  | block _ _ _ _ _ hP _ _ ihc ihr =>
    rcases mem_elements_cons he with rfl | he | he
    · exact ⟨_, hP⟩
    · exact ihc he
    · exact ihr he

/-- An element with content has its children there, and no other element starts there that is not
below it. -/
theorem exists_children {a : ℕ} (h : Within P lo hi f) (he : e ∈ f.elements i)
    (ha : e.2.startTagEnd = some a) :
    ∃ children, P e.2 children ∧ Within P a e.2.contentEnd children ∧
      e.2.span.start < a ∧ e.2.contentEnd ≤ e.2.span.stop ∧
      ∀ d ∈ f.elements i, a ≤ d.2.span.start → d.2.span.start < e.2.contentEnd →
        d ∈ children.elements (e.1 + 1) := by
  induction h generalizing i with
  | nil _ => cases he
  | leaf hlo hlt hstart _ hrest ih =>
    rcases mem_elements_cons he with rfl | he | he
    · rw [hstart] at ha
      cases ha
    · cases he
    · obtain ⟨children, hP, hchildren, hlta, hend, hall⟩ := ih he
      refine ⟨children, hP, hchildren, hlta, hend, fun d hd hda hdend => ?_⟩
      have hbounds := hrest.bounds he
      rcases mem_elements_cons hd with rfl | hd | hd
      · dsimp only at hda
        omega
      · cases hd
      · exact hall d hd hda hdend
  | @block lo hi b node children rest hlo helem hstart hlt hend hP hchildren hrest ihc ihr =>
    have hcontent := Node.contentEnd_le hend
    rcases mem_elements_cons he with rfl | he | he
    · rw [hstart] at ha
      cases ha
      refine ⟨children, hP, hchildren, hlt, hcontent, fun d hd hda hdend => ?_⟩
      dsimp only at hdend
      rcases mem_elements_cons hd with rfl | hd | hd
      · dsimp only at hda
        omega
      · exact hd
      · have hbounds := hrest.bounds hd
        omega
    · obtain ⟨below, hP, hbelow, hlta, hstop, hall⟩ := ihc he
      have hbounds := hchildren.bounds he
      refine ⟨below, hP, hbelow, hlta, hstop, fun d hd hda hdend => ?_⟩
      rcases mem_elements_cons hd with rfl | hd | hd
      · dsimp only at hda
        omega
      · exact hall d hd hda hdend
      · have hbounds := hrest.bounds hd
        omega
    · obtain ⟨below, hP, hbelow, hlta, hstop, hall⟩ := ihr he
      have hbounds := hrest.bounds he
      refine ⟨below, hP, hbelow, hlta, hstop, fun d hd hda hdend => ?_⟩
      rcases mem_elements_cons hd with rfl | hd | hd
      · have hle := hchildren.le
        dsimp only at hda
        omega
      · have hbounds := hchildren.bounds hd
        omega
      · exact hall d hd hda hdend

/-- In pre-order the elements come in the order of their starts, each behind the start tags of those
before it. -/
theorem elements_pairwise (h : Within P lo hi f) (i : ℕ) :
    (f.elements i).Pairwise fun e d =>
      e.2.span.start < d.2.span.start ∧ ∀ a ∈ e.2.startTagEnd, a ≤ d.2.span.start := by
  induction h generalizing i with
  | nil _ => exact .nil
  | @leaf lo hi node rest hlo hlt hstart _ hrest ih =>
    rw [elements_cons]
    split_ifs
    · refine List.pairwise_cons.2 ⟨fun d hd => ?_, ih _⟩
      have hbounds := hrest.bounds hd
      refine ⟨hlt.trans_le hbounds.1, fun a ha => ?_⟩
      rw [hstart] at ha
      cases ha
    · exact ih _
  | @block lo hi a node children rest hlo helem hstart hlt hend _ hchildren hrest ihc ihr =>
    have hcontent := Node.contentEnd_le hend
    have hle := hchildren.le
    rw [elements_cons, if_pos helem]
    refine List.pairwise_cons.2 ⟨fun d hd => ?_, List.pairwise_append.2
      ⟨ihc _, ihr _, fun c hc d hd => ?_⟩⟩
    · have hd : a ≤ d.2.span.start := by
        rcases List.mem_append.1 hd with hd | hd
        · exact (hchildren.bounds hd).1
        · exact hle.trans (hcontent.trans (hrest.bounds hd).1)
      refine ⟨hlt.trans_le hd, fun x hx => ?_⟩
      rw [hstart] at hx
      cases hx
      exact hd
    · have hcbounds := hchildren.bounds hc
      have hdbounds := hrest.bounds hd
      refine ⟨by omega, fun x hx => ?_⟩
      obtain ⟨below, -, hbelow, -, hstop, -⟩ := hchildren.exists_children hc hx
      have hxle := hbelow.le
      omega

/-! ## Descents -/

/-- The elements in pre-order that hold an offset. -/
def around (o : ℕ) (f : Forest) (i : ℕ) : List (ℕ × Node) :=
  (f.elements i).filter fun e => e.2.span.containsByte o

theorem around_eq_nil (h : Within P lo hi f) (ho : o < lo ∨ hi ≤ o) (i : ℕ) :
    around o f i = [] := by
  refine List.filter_eq_nil_iff.2 fun e he => ?_
  have hbounds := h.bounds he
  rw [Span.containsByte_iff]
  omega

/-- The siblings behind a node, and what is below it, in a nested forest. -/
theorem parts (h : Within P lo hi (.cons node children rest)) :
    Within P node.span.stop hi rest ∧ (node.isElement = false → children = .nil) ∧
      ∃ a b, node.span.start ≤ a ∧ b ≤ node.span.stop ∧ Within P a b children := by
  cases h with
  | leaf _ hlt _ _ hrest => exact ⟨hrest, fun _ => rfl, _, _, le_rfl, hlt.le, .nil le_rfl⟩
  | block _ helem _ hlt hend _ hchildren hrest =>
    refine ⟨hrest, fun hnode => ?_, _, _, hlt.le, Node.contentEnd_le hend, hchildren⟩
    rw [helem] at hnode
    cases hnode

/-- A node and its later siblings do not both hold an offset, and the node holds what its children do. -/
theorem around_cons (h : Within P lo hi (.cons node children rest)) (o i : ℕ) :
    around o (.cons node children rest) i =
      if node.isElement && node.span.containsByte o then (i, node) :: around o children (i + 1)
      else around o rest (i + 1 + children.size) := by
  obtain ⟨hrest, hleaf, a, b, ha, hb, hchildren⟩ := h.parts
  by_cases hnode : node.isElement = true
  · by_cases ho : node.span.containsByte o = true
    · have hnone : around o rest (i + 1 + children.size) = [] :=
        hrest.around_eq_nil (.inl (Span.containsByte_iff.1 ho).2) _
      unfold around at hnone ⊢
      rw [hnode, ho, Bool.true_and, if_pos rfl, elements_cons, if_pos hnode,
        List.filter_cons_of_pos (by exact ho), List.filter_append, hnone, List.append_nil]
    · have hnone : around o children (i + 1) = [] := by
        rw [Span.containsByte_iff] at ho
        exact hchildren.around_eq_nil (by omega) _
      unfold around at hnone ⊢
      rw [hnode, Bool.true_and, if_neg ho, elements_cons, if_pos hnode,
        List.filter_cons_of_neg (by exact ho), List.filter_append, hnone, List.nil_append]
  · rw [Bool.not_eq_true] at hnode
    obtain rfl := hleaf hnode
    unfold around
    rw [hnode, Bool.false_and, if_neg Bool.false_ne_true, elements_cons, hnode,
      if_neg Bool.false_ne_true]
    rfl

/-- **Descents.** The innermost element around an offset is the last one in pre-order that holds it. -/
theorem elementAt?_eq (h : Within P lo hi f) (o i : ℕ) :
    f.elementAt? o i = (around o f i).getLast? := by
  induction f generalizing lo hi i with
  | nil => rfl
  | cons node children rest ihc ihr =>
    obtain ⟨hrest, -, a, b, -, -, hchildren⟩ := h.parts
    rw [h.around_cons]
    unfold elementAt?
    split_ifs
    · rw [ihc hchildren, List.getLast?_cons]
    · exact ihr hrest _

theorem mem_around : e ∈ around o f i ↔ e ∈ f.elements i ∧ e.2.span.containsByte o = true :=
  List.mem_filter

/-- The innermost element around an offset comes after all others that hold it. -/
theorem after_elementAt? (h : Within P lo hi f) (hd : f.elementAt? o i = some d)
    (he : e ∈ around o f i) :
    e = d ∨ e.2.span.start < d.2.span.start ∧ ∀ a ∈ e.2.startTagEnd, a ≤ d.2.span.start := by
  rw [h.elementAt?_eq] at hd
  obtain ⟨before, hbefore⟩ := List.getLast?_eq_some_iff.1 hd
  have hpairwise : (around o f i).Pairwise _ := (h.elements_pairwise i).filter _
  rw [hbefore] at he hpairwise
  rcases List.mem_append.1 he with he | he
  · exact .inr ((List.pairwise_append.1 hpairwise).2.2 e he d List.mem_cons_self)
  · exact .inl (List.mem_singleton.1 he)

theorem mem_of_elementAt? (h : Within P lo hi f) (hd : f.elementAt? o i = some d) :
    d ∈ f.elements i ∧ d.2.span.containsByte o = true := by
  rw [h.elementAt?_eq] at hd
  exact mem_around.1 (List.mem_of_getLast? hd)

theorem exists_elementAt? (h : Within P lo hi f) (he : e ∈ around o f i) :
    ∃ d, f.elementAt? o i = some d := by
  rw [h.elementAt?_eq]
  exact ⟨_, List.getLast?_eq_some_getLast (List.ne_nil_of_mem he)⟩

/-- Where an element starts it is the innermost one. -/
theorem elementAt?_start (h : Within P lo hi f) (he : e ∈ f.elements i) :
    f.elementAt? e.2.span.start i = some e := by
  have hbounds := h.bounds he
  have haround : e ∈ around e.2.span.start f i :=
    mem_around.2 ⟨he, Span.containsByte_iff.2 ⟨le_rfl, hbounds.2.1⟩⟩
  obtain ⟨d, hd⟩ := h.exists_elementAt? haround
  rcases h.after_elementAt? hd haround with rfl | ⟨hlt, -⟩
  · exact hd
  · have hstart := Span.containsByte_iff.1 (h.mem_of_elementAt? hd).2
    omega

/-- In the content of an element the innermost one is the element itself, or one that starts there. -/
theorem elementAt?_content {a : ℕ} (h : Within P lo hi f) (he : e ∈ f.elements i)
    (ha : e.2.startTagEnd = some a) (hao : a ≤ o) (ho : o < e.2.contentEnd) :
    ∃ d ∈ f.elements i, f.elementAt? o i = some d ∧
      (d = e ∨ a ≤ d.2.span.start ∧ d.2.span.start ≤ o) := by
  obtain ⟨below, -, -, hlt, hend, -⟩ := h.exists_children he ha
  have haround : e ∈ around o f i :=
    mem_around.2 ⟨he, Span.containsByte_iff.2 ⟨by omega, by omega⟩⟩
  obtain ⟨d, hd⟩ := h.exists_elementAt? haround
  obtain ⟨hmem, hcontains⟩ := h.mem_of_elementAt? hd
  refine ⟨d, hmem, hd, ?_⟩
  rcases h.after_elementAt? hd haround with rfl | ⟨-, hstart⟩
  · exact .inl rfl
  · exact .inr ⟨hstart a ha, (Span.containsByte_iff.1 hcontains).1⟩

/-! ## Siblings, last first -/

/-- A node that is nested on its own comes in front of later siblings. -/
theorem cons (h : Within P node.span.start node.span.stop (.cons node children .nil))
    (hrest : Within P node.span.stop hi rest) :
    Within P node.span.start hi (.cons node children rest) := by
  cases h with
  | leaf hlo hlt hstart hP _ => exact .leaf hlo hlt hstart hP hrest
  | block hlo helem hstart hlt hend hP hchildren _ =>
    exact .block hlo helem hstart hlt hend hP hchildren hrest

end Within

/-- Complete siblings from `lo` on and up to an offset, last first, each nested on its own. -/
def Laid (P : Node → Forest → Prop) (lo : ℕ) : ℕ → List (Node × Forest) → Prop
  | hi, [] => lo ≤ hi
  | hi, (node, children) :: earlier =>
    node.span.stop ≤ hi ∧ Within P node.span.start node.span.stop (.cons node children .nil) ∧
      Laid P lo node.span.start earlier

theorem Laid.mono {siblings : List (Node × Forest)} {hi' : ℕ} (h : Laid P lo hi siblings)
    (hle : hi ≤ hi') : Laid P lo hi' siblings := by
  cases siblings with
  | nil => exact Nat.le_trans h hle
  | cons sibling earlier => exact ⟨h.1.trans hle, h.2⟩

theorem Laid.within {siblings : List (Node × Forest)} {mid : ℕ} (h : Laid P lo mid siblings)
    (hf : Within P mid hi f) : Within P lo hi (prependReversed siblings f) := by
  induction siblings generalizing mid f with
  | nil => exact hf.mono h
  | cons sibling earlier ih => exact ih h.2.2 (h.2.1.cons (hf.mono h.1))

end Forest

end Polyglot.Markup
