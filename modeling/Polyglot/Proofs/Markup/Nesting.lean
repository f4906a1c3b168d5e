import Mathlib
import Polyglot.Markup.Document
import Polyglot.Proofs.Markup.Forest
import Polyglot.Proofs.Markup.Stream
import Polyglot.Proofs.Text.Octet

/-!
# Nesting of a document

What is assembled from a stream of tokens is a nested forest (`Document.within`). While the tokens come, the
complete nodes and the open elements lie one behind the other up to the site that the stream has reached
(`Stacked`), and at the content of a raw text element that element is open and has no element inside
(`Assembly.Agrees`). Each kind of token keeps this.
-/

namespace Polyglot.Markup

open Text Forest

variable {s : String} {base hi hi' i : ℕ} {name : List Char} {n : Node} {f : Forest}
  {e : OpenElement} {rest stack : List OpenElement} {roots : List (Node × Forest)} {a : Assembly}
  {p : Site} {ts : List Token}

/-! ## Nodes that were read -/

/-- An end tag of `name` that has a slash behind the name. It ends the text of a raw text element, but it
is not the end tag of that element. -/
def SlashedEndAt (s : String) (name : List Char) (q : ℕ) : Prop :=
  EndTagAt (octets s) name q ∧ (octets s)[q + 2 + name.length]? = some '/'

/-- An element begins at a `<`. A raw text element holds no element, unless there is a slashed end tag in
its content. -/
structure Node.Read (s : String) (n : Node) (children : Forest) : Prop where
  opens : n.isElement = true → (octets s)[n.span.start]? = some '<'
  raw : isRawTextName n.tag.toList = true → ∀ a ∈ n.startTagEnd, ∀ b ∈ n.endTagStart,
    (∀ m ∈ children.nodes, m.isElement = false) ∨
      ∃ q, a ≤ q ∧ q < b ∧ SlashedEndAt s n.tag.toList q

theorem Value.rawSpan_le {v : Value} (h : v.span.start ≤ v.span.stop) :
    v.rawSpan.start ≤ v.rawSpan.stop := by
  unfold rawSpan
  split
  · exact h
  · exact (Nat.sub_le _ _).trans (h.trans (Nat.le_succ _))

/-! ## Names -/

theorem isAsciiOctet_of_toLower {c d : Char} (h : c.toLower = d) (hd : IsAsciiOctet d) :
    IsAsciiOctet c := by
  unfold Char.toLower at h
  split_ifs at h with hupper
  · exact (UInt32.le_iff_toNat_le.1 hupper.2).trans_lt (by decide)
  · exact h ▸ hd

theorem isAsciiOctet_of_raw (h : isRawTextName name = true) :
    (∀ c ∈ name, IsAsciiOctet c) ∧ ∀ c ∈ name.map Char.toLower, IsAsciiOctet c := by
  have hall : (rawTextElements.all fun e => (e.toList.all fun c => decide (IsAsciiOctet c)) &&
      (e.toList.map Char.toLower).all fun c => decide (IsAsciiOctet c)) = true := by decide +kernel
  obtain ⟨x, hx, heq⟩ := List.any_eq_true.1 h
  rw [beq_iff_eq] at heq
  subst heq
  obtain ⟨hname, hlower⟩ := Bool.and_eq_true_iff.1 (List.all_eq_true.1 hall x hx)
  exact ⟨fun c hc => of_decide_eq_true (List.all_eq_true.1 hname c hc),
    fun c hc => of_decide_eq_true (List.all_eq_true.1 hlower c hc)⟩

theorem octetsAt_octets (s : String) (r : Span) : octetsAt (octets s) r = (bytesAt s r).map octet := by
  unfold octetsAt octets bytesAt
  rw [List.map_take, List.map_drop]

/-- ASCII octets spell what they are. -/
theorem spelling_of_ascii {r : Span} (hle : r.start ≤ r.stop) (hstop : r.stop ≤ size s)
    (hne : octetsAt (octets s) r ≠ []) (h : ∀ c ∈ octetsAt (octets s) r, IsAsciiOctet c) :
    (spelling s r).toList = octetsAt (octets s) r := by
  have hsplit : octets s = (octets s).take r.start ++ octetsAt (octets s) r ++
      (octets s).drop r.stop := by
    unfold octetsAt Span.length
    rw [List.append_assoc, ← Nat.add_sub_cancel' hle, ← List.drop_drop, Nat.add_sub_cancel_left,
      List.take_append_drop, List.take_append_drop]
  obtain ⟨x, y, hs, hx, -⟩ := exists_split_of_octets hsplit hne h
  have hsize : size x = r.start := by
    rw [← length_octets, hx, List.length_take, length_octets]
    omega
  have hslice : r.slice? s = some (String.ofList (octetsAt (octets s) r)) := by
    refine Span.slice?_eq_some_iff.2 ⟨x, y, hs, hsize, ?_⟩
    rw [size_append, hsize, ← length_octets, octets_ofList h]
    unfold octetsAt Span.length
    rw [List.length_take, List.length_drop, length_octets]
    omega
  unfold spelling
  rw [hslice, Option.getD_some, String.toList_ofList]

/-- A raw text element is spelled by its octets. -/
theorem spelling_of_raw {r : Span} (hle : r.start ≤ r.stop) (hstop : r.stop ≤ size s)
    (h : isRawTextName (spelling s r).toList = true ∨
      isRawTextName (octetsAt (octets s) r) = true) :
    (spelling s r).toList = octetsAt (octets s) r := by
  rcases h with h | h
  · have hascii := (isAsciiOctet_of_raw h).1
    unfold spelling at h hascii ⊢
    rcases hslice : r.slice? s with _ | t
    · rw [hslice] at h
      cases h
    · rw [hslice] at hascii
      rw [Option.getD_some] at hascii ⊢
      rw [octetsAt_octets, ← Span.bytes_of_slice? hslice]
      exact (octets_eq_toList hascii).symm
  · refine spelling_of_ascii hle hstop (fun hnil => ?_) (isAsciiOctet_of_raw h).1
    rw [hnil] at h
    cases h

/-- An end tag of a raw text element is spelled like the element, up to case. -/
theorem spelling_endTag {q : ℕ} (hraw : isRawTextName name = true)
    (h : EndTagAt (octets s) name q) {tag : String} (htag : tag.toList = name) :
    sameIgnoringCase tag (spelling s ⟨q + 2, q + 2 + name.length⟩) = true := by
  have hlower := h.lower_eq
  have hlength := h.le_length
  rw [length_octets] at hlength
  have hspelling := spelling_of_ascii (s := s) (r := ⟨q + 2, q + 2 + name.length⟩)
    (Nat.le_add_right _ _) hlength (fun hnil => ?_) fun c hc => ?_
  · unfold sameIgnoringCase
    rw [hspelling, hlower, htag, beq_self_eq_true]
  · rw [hnil, List.map_nil, eq_comm, List.map_eq_nil_iff] at hlower
    rw [hlower] at hraw
    cases hraw
  · have hmem := List.mem_map_of_mem (f := Char.toLower) hc
    rw [hlower] at hmem
    exact isAsciiOctet_of_toLower rfl ((isAsciiOctet_of_raw hraw).2 _ hmem)

/-! ## Open elements -/

namespace OpenElement

/-- The children of an open element lie behind its start tag and up to `hi`. -/
structure Opened (s : String) (e : OpenElement) (a hi : ℕ) : Prop where
  element : e.node.isElement = true
  opens : (octets s)[e.node.span.start]? = some '<'
  startTagEnd : e.node.startTagEnd = some a
  start_lt : e.node.span.start < a
  endTagStart : e.node.endTagStart = none
  laid : Laid (Node.Read s) a hi e.children

/-- If the element is a raw text element, its text has ended before `hi` at a slashed end tag. -/
def Escaped (s : String) (e : OpenElement) (hi : ℕ) : Prop :=
  isRawTextName e.node.tag.toList = true → ∀ a ∈ e.node.startTagEnd,
    ∃ q, a ≤ q ∧ q < hi ∧ SlashedEndAt s e.node.tag.toList q

theorem Opened.mono {b : ℕ} (h : e.Opened s b hi) (hle : hi ≤ hi') : e.Opened s b hi' :=
  { h with laid := h.laid.mono hle }

theorem Escaped.mono (h : e.Escaped s hi) (hle : hi ≤ hi') : e.Escaped s hi' := by
  intro hraw b hb
  obtain ⟨q, hq, hlt, hslash⟩ := h hraw b hb
  exact ⟨q, hq, hlt.trans_le hle, hslash⟩

/-- An open element whose content ends at `hi` is nested, once its end is known. -/
theorem Opened.within {b : ℕ} (h : e.Opened s b hi) {change : Node → Node}
    (hchange : ∃ stop endTag, change e.node =
      { e.node with span := ⟨e.node.span.start, stop⟩, endTagStart := endTag })
    (hcontent : (change e.node).contentEnd = hi)
    (hend : ∀ x ∈ (change e.node).endTagStart, x < (change e.node).span.stop)
    (hraw : (change e.node).endTagStart.isSome → isRawTextName e.node.tag.toList = true →
      (∀ m ∈ (prependReversed e.children .nil).nodes, m.isElement = false) ∨
        ∃ q, b ≤ q ∧ q < hi ∧ SlashedEndAt s e.node.tag.toList q) :
    Within (Node.Read s) (change e.node).span.start (change e.node).span.stop
      (.cons (change e.node) (prependReversed e.children .nil) .nil) := by
  obtain ⟨stop, endTag, heq⟩ := hchange
  rw [heq] at hcontent hend hraw ⊢
  refine .block le_rfl h.element h.startTagEnd h.start_lt hend ⟨fun _ => h.opens, ?_⟩ ?_
    (.nil le_rfl)
  · intro hname x hx y hy
    rw [Option.mem_def.1 h.startTagEnd] at hx
    cases hx
    have hy' : y = hi := by
      rw [← hcontent]
      unfold Node.contentEnd
      rw [Option.mem_def.1 hy]
      rfl
    rw [hy']
    exact hraw (Option.isSome_iff_exists.2 ⟨y, hy⟩) hname
  · rw [hcontent]
    exact h.laid.within (.nil le_rfl)

end OpenElement

/-- The roots and the open elements, innermost first, lie one behind the other up to `hi`. -/
def Stacked (s : String) (base : ℕ) (roots : List (Node × Forest)) : ℕ → List OpenElement → Prop
  | hi, [] => Laid (Node.Read s) base hi roots
  | hi, e :: stack => (∃ b, e.Opened s b hi) ∧ e.Escaped s hi ∧
      Stacked s base roots e.node.span.start stack

theorem Stacked.mono (h : Stacked s base roots hi stack) (hle : hi ≤ hi') :
    Stacked s base roots hi' stack := by
  cases stack with
  | nil => exact Laid.mono h hle
  | cons e stack =>
    obtain ⟨⟨b, hopened⟩, hescaped, hrest⟩ := h
    exact ⟨⟨b, hopened.mono hle⟩, hescaped.mono hle, hrest⟩

namespace Assembly

/-! ## Complete nodes -/

theorem attach_stacked (h : Stacked s base a.roots hi a.stack) (hle : hi ≤ n.span.start)
    (hn : Within (Node.Read s) n.span.start n.span.stop (.cons n f .nil)) :
    Stacked s base (a.attach n f).roots n.span.stop (a.attach n f).stack := by
  have hspan : n.span.start ≤ n.span.stop := hn.le
  unfold attach
  rcases hstack : a.stack with _ | ⟨e, stack⟩
  · rw [hstack] at h
    exact ⟨le_rfl, hn, h.mono hle⟩
  · rw [hstack] at h
    obtain ⟨⟨b, hopened⟩, hescaped, hrest⟩ := h
    refine ⟨⟨b, ?_⟩, hescaped.mono (hle.trans hspan), hrest⟩
    exact { hopened with laid := ⟨le_rfl, hn, hopened.laid.mono hle⟩ }

@[simp] theorem starting_attach (a : Assembly) (n : Node) (f : Forest) :
    (a.attach n f).starting = a.starting := by
  unfold attach
  split <;> rfl

@[simp] theorem length_stack_attach (a : Assembly) (n : Node) (f : Forest) :
    (a.attach n f).stack.length = a.stack.length := by
  unfold attach
  split
  · rename_i h; rw [h]
  · rename_i h; rw [h]; rfl

/-- The innermost open element ends, with or without its own end tag. -/
theorem close_stacked {b : ℕ} {change : Node → Node} (hstack : a.stack = e :: rest)
    (hrest : Stacked s base a.roots e.node.span.start rest) (hopened : e.Opened s b hi)
    (hchange : ∃ stop endTag, change e.node =
      { e.node with span := ⟨e.node.span.start, stop⟩, endTagStart := endTag })
    (hcontent : (change e.node).contentEnd = hi)
    (hend : ∀ x ∈ (change e.node).endTagStart, x < (change e.node).span.stop)
    (hraw : (change e.node).endTagStart.isSome → isRawTextName e.node.tag.toList = true →
      (∀ m ∈ (prependReversed e.children .nil).nodes, m.isElement = false) ∨
        ∃ q, b ≤ q ∧ q < hi ∧ SlashedEndAt s e.node.tag.toList q) :
    Stacked s base (a.close change).roots (change e.node).span.stop (a.close change).stack := by
  have hwithin := hopened.within hchange hcontent hend hraw
  unfold close
  rw [hstack]
  refine attach_stacked (a := { a with stack := rest }) hrest ?_ hwithin
  obtain ⟨stop, endTag, heq⟩ := hchange
  rw [heq]

theorem close_missing {b : ℕ} (hstack : a.stack = e :: rest)
    (hrest : Stacked s base a.roots e.node.span.start rest) (hopened : e.Opened s b hi) :
    let closed := a.close fun node => { node with span.stop := hi }
    Stacked s base closed.roots hi closed.stack := by
  refine close_stacked hstack hrest hopened ⟨hi, e.node.endTagStart, rfl⟩ ?_ ?_ ?_
  · unfold Node.contentEnd
    rw [hopened.endTagStart]
    rfl
  · intro x hx
    rw [hopened.endTagStart] at hx
    cases hx
  · intro hsome
    rw [hopened.endTagStart] at hsome
    cases hsome

theorem abandon_nil {offset k : ℕ} (hstack : a.stack = []) : a.abandon offset (k + 1) = a := by
  unfold abandon
  rw [hstack]

theorem abandon_cons {offset k : ℕ} (hstack : a.stack = e :: rest) :
    a.abandon offset (k + 1) = ((a.close fun node => { node with span.stop := offset }).fail
      .missingEndTag e.node.span.start).abandon offset k := by
  rw [abandon, hstack]

/-- Open elements without end tags end where the stream has come. -/
theorem abandon_stacked (h : Stacked s base a.roots hi a.stack) (k : ℕ) :
    Stacked s base (a.abandon hi k).roots hi (a.abandon hi k).stack := by
  induction k generalizing a with
  | zero => exact h
  | succ k ih =>
    rcases hstack : a.stack with _ | ⟨e, rest⟩
    · rw [abandon_nil hstack]
      exact h
    · rw [abandon_cons hstack]
      rw [hstack] at h
      obtain ⟨⟨b, hopened⟩, -, hrest⟩ := h
      exact ih (close_missing hstack hrest hopened)

theorem abandon_opened {b : ℕ} (hstack : a.stack = e :: rest)
    (hrest : Stacked s base a.roots e.node.span.start rest) (hopened : e.Opened s b hi) (k : ℕ) :
    Stacked s base (a.abandon hi (k + 1)).roots hi (a.abandon hi (k + 1)).stack := by
  rw [abandon_cons hstack]
  exact abandon_stacked (a := (a.close _).fail _ _) (close_missing hstack hrest hopened) k

/-- The innermost open element ends with its end tag at `hi`. -/
theorem close_endTag {stop : ℕ} (h : Stacked s base a.roots hi a.stack) (hlt : hi < stop) :
    let closed := a.close fun node => { node with endTagStart := some hi, span.stop := stop }
    Stacked s base closed.roots stop closed.stack := by
  intro closed
  rcases hstack : a.stack with _ | ⟨e, rest⟩
  · have hclosed : closed = a := by
      show a.close _ = a
      unfold close
      rw [hstack]
    rw [hclosed]
    exact h.mono hlt.le
  · rw [hstack] at h
    obtain ⟨⟨b, hopened⟩, hescaped, hrest⟩ := h
    refine close_stacked hstack hrest hopened ⟨stop, some hi, rfl⟩ rfl ?_ fun _ hraw => ?_
    · rintro x ⟨⟩
      exact hlt
    · exact .inr (hescaped hraw b hopened.startTagEnd)

@[simp] theorem starting_close (a : Assembly) (change : Node → Node) :
    (a.close change).starting = a.starting := by
  unfold close
  split
  · rfl
  · rw [starting_attach]

@[simp] theorem starting_abandon (a : Assembly) (offset k : ℕ) :
    (a.abandon offset k).starting = a.starting := by
  induction k generalizing a with
  | zero => rfl
  | succ k ih =>
    rcases hstack : a.stack with _ | ⟨e, rest⟩
    · rw [abandon_nil hstack]
    · rw [abandon_cons hstack, ih]
      exact starting_close a _

theorem length_stack_abandon (a : Assembly) (offset k : ℕ) :
    (a.abandon offset k).stack.length = a.stack.length - k := by
  induction k generalizing a with
  | zero => rfl
  | succ k ih =>
    rcases hstack : a.stack with _ | ⟨e, rest⟩
    · rw [abandon_nil hstack, hstack, List.length_nil, Nat.zero_sub]
    · rw [abandon_cons hstack, ih, List.length_cons, Nat.add_sub_add_right]
      unfold close fail
      rw [hstack]
      dsimp only
      rw [length_stack_attach]

/-- At the end nothing stays open. -/
theorem abandon_all (h : Stacked s base (a.abandon hi a.stack.length).roots hi
      (a.abandon hi a.stack.length).stack) :
    Within (Node.Read s) base hi (prependReversed (a.abandon hi a.stack.length).roots .nil) := by
  have hlength := length_stack_abandon a hi a.stack.length
  rw [Nat.sub_self, List.length_eq_zero_iff] at hlength
  rw [hlength] at h
  exact Laid.within h (.nil le_rfl)

/-! ## Tokens -/

/-- The node of an element whose start tag is read up to `i`, its name spelled by these octets. -/
structure Starting (s : String) (name : List Char) (n : Node) (i : ℕ) : Prop where
  element : n.isElement = true
  opens : (octets s)[n.span.start]? = some '<'
  lt : n.span.start < n.span.stop
  le : n.span.stop ≤ i
  startTagEnd : n.startTagEnd = none
  endTagStart : n.endTagStart = none
  tag : isRawTextName n.tag.toList = true ∨ isRawTextName name = true → n.tag.toList = name

/-- An assembly that has taken the tokens up to a site. -/
inductive Agrees (s : String) (base : ℕ) (a : Assembly) : Site → Prop
  | outside {i : ℕ} : a.starting = none → Stacked s base a.roots i a.stack →
      Agrees s base a (.outside i)
  | tag {name : List Char} {i : ℕ} {n : Node} : a.starting = some n → Starting s name n i →
      Stacked s base a.roots n.span.start a.stack → Agrees s base a (.tag name i)
  | raw {name : List Char} {i : ℕ} {e : OpenElement} {rest : List OpenElement} :
      a.starting = none → a.stack = e :: rest → e.Opened s i i → e.children = [] →
      e.node.tag.toList = name → Stacked s base a.roots e.node.span.start rest →
      Agrees s base a (.raw name i)
  | rawEnd {name : List Char} {i b : ℕ} {e : OpenElement} {rest : List OpenElement} :
      a.starting = none → a.stack = e :: rest → e.Opened s b i → b ≤ i →
      (∀ m ∈ (prependReversed e.children .nil).nodes, m.isElement = false) →
      e.node.tag.toList = name → Stacked s base a.roots e.node.span.start rest →
      Agrees s base a (.rawEnd name i)

theorem within_leaf {kind : NodeKind} {j : ℕ} (hkind : kind ≠ .element) (hlt : i < j) :
    Within (Node.Read s) i j (.cons { kind, span := ⟨i, j⟩ } .nil .nil) := by
  refine .leaf le_rfl hlt rfl ⟨fun helem => ?_, fun _ x hx => ?_⟩ (.nil le_rfl)
  · exact absurd (beq_iff_eq.1 helem) hkind
  · cases hx

/-- A token that becomes a node without children. -/
theorem step_leaf {t : Token} {r : Span} (h : t.leaf? = some r) :
    ∃ kind, kind ≠ NodeKind.element ∧ step s a t = a.attachLeaf kind r := by
  cases t <;> cases h
  case text => exact ⟨.text, nofun, rfl⟩
  case expression => exact ⟨.expression, nofun, rfl⟩
  case comment => exact ⟨.comment, nofun, rfl⟩
  case doctype => exact ⟨.doctype, nofun, rfl⟩

namespace Agrees

variable {t : Token} {j : ℕ}

theorem failed (h : a.Agrees s base p) (errors : List Error) :
    ({ a with errors }).Agrees s base p := by
  cases h with
  | outside hstarting hstacked => exact .outside hstarting hstacked
  | tag hstarting hn hstacked => exact .tag hstarting hn hstacked
  | raw hstarting hstack hopened hchildren htag hrest =>
    exact .raw hstarting hstack hopened hchildren htag hrest
  | rawEnd hstarting hstack hopened hb hchildren htag hrest =>
    exact .rawEnd hstarting hstack hopened hb hchildren htag hrest

theorem leaf (h : a.Agrees s base (.outside i)) (ht : t.leaf? = some ⟨i, j⟩) (hlt : i < j) :
    (step s a t).Agrees s base (.outside j) := by
  obtain ⟨kind, hkind, hstep⟩ := step_leaf (s := s) (a := a) ht
  cases h with
  | outside hstarting hstacked =>
    rw [hstep]
    unfold attachLeaf
    rw [if_pos hlt]
    refine .outside ?_ (attach_stacked (n := { kind, span := ⟨i, j⟩ }) hstacked le_rfl
      (within_leaf hkind hlt))
    rw [starting_attach, hstarting]

theorem openName (h : a.Agrees s base (.outside i)) (hopens : (octets s)[i]? = some '<')
    (hlt : i < j) (hj : j ≤ size s) :
    (step s a (.openName ⟨i + 1, j⟩)).Agrees s base (.tag (octetsAt (octets s) ⟨i + 1, j⟩) j) := by
  cases h with
  | outside hstarting hstacked =>
    unfold step settle
    dsimp only
    rw [hstarting]
    refine .tag rfl ⟨rfl, hopens, hlt, le_rfl, rfl, rfl, ?_⟩ hstacked
    exact spelling_of_raw hlt hj

/-- Attributes are nothing to the nesting. -/
theorem attributed (h : a.Agrees s base (.tag name i)) (hle : i ≤ j) {change : Node → Node}
    (hchange : ∀ n, ∃ attributes, change n = { n with attributes }) :
    ({ a with starting := a.starting.map change }).Agrees s base (.tag name j) := by
  cases h with
  | @tag _ _ n hstarting hn hstacked =>
    obtain ⟨attributes, heq⟩ := hchange n
    refine .tag (n := change n) ?_ ?_ ?_
    · dsimp only
      rw [hstarting]
      rfl
    · rw [heq]
      exact { hn with le := hn.le.trans hle }
    · rw [heq]
      exact hstacked

/-- A start tag that ends the element too. -/
theorem settled (h : a.Agrees s base (.tag name i)) (hle : i ≤ j) :
    (a.settle (endStartTag j)).Agrees s base (.outside (j + 1)) := by
  cases h with
  | @tag _ _ n hstarting hn hstacked =>
    have hlt : n.span.start < j + 1 := hn.lt.trans_le (hn.le.trans (hle.trans (Nat.le_succ j)))
    have hcontent : (endStartTag j n).contentEnd = j + 1 := by
      unfold Node.contentEnd endStartTag
      dsimp only
      rw [hn.endTagStart]
      rfl
    unfold settle
    rw [hstarting]
    refine .outside (starting_attach _ _ _) (attach_stacked (a := { a with starting := none })
      (n := endStartTag j n) hstacked le_rfl (.block le_rfl hn.element rfl hlt (fun b hb => ?_)
        ⟨fun _ => hn.opens, fun _ x _ b hb => ?_⟩ (.nil hcontent.ge) (.nil le_rfl)))
    · rw [show (endStartTag j n).endTagStart = none from hn.endTagStart] at hb
      cases hb
    · rw [show (endStartTag j n).endTagStart = none from hn.endTagStart] at hb
      cases hb

/-- A start tag that opens an element. -/
theorem openEnd (h : a.Agrees s base (.tag name i)) (hle : i ≤ j) :
    (step s a (.openEnd j)).Agrees s base (.content name (j + 1)) := by
  have hsettled := h.settled hle
  cases h with
  | @tag _ _ n hstarting hn hstacked =>
    have hlt : n.span.start < j + 1 := hn.lt.trans_le (hn.le.trans (hle.trans (Nat.le_succ j)))
    have hopened : OpenElement.Opened s ⟨endStartTag j n, []⟩ (j + 1) (j + 1) :=
      ⟨hn.element, hn.opens, rfl, hlt, hn.endTagStart, le_rfl⟩
    unfold step Site.content
    dsimp only
    rw [hstarting]
    dsimp only
    split_ifs with hvoid hraw hraw
    · have hall : (voidElements.all fun v => !isRawTextName v.toList) = true := by decide +kernel
      have hnot := List.all_eq_true.1 hall n.tag (List.contains_iff_mem.1 hvoid)
      rw [hn.tag (.inr hraw), hraw] at hnot
      cases hnot
    · exact hsettled
    · exact .raw rfl rfl hopened rfl (hn.tag (.inr hraw)) hstacked
    · refine .outside rfl ⟨⟨j + 1, hopened⟩, fun htag => ?_, hstacked⟩
      have htag' : isRawTextName n.tag.toList = true := htag
      rw [hn.tag (.inl htag')] at htag'
      exact absurd htag' hraw

/-- An end tag, of whatever element. -/
theorem closeTag {r : Span} {stop : ℕ} (h : a.Agrees s base (.outside i))
    (hlt : i < min (stop + 1) (size s)) :
    (step s a (.closeTag i r stop)).Agrees s base (.outside (min (stop + 1) (size s))) := by
  cases h with
  | outside hstarting hstacked =>
    unfold step
    dsimp only
    split
    · split_ifs
      · exact .outside hstarting (hstacked.mono hlt.le)
      · exact .outside hstarting (hstacked.mono hlt.le)
    next inner _ =>
      refine .outside ?_ (close_endTag (abandon_stacked hstacked inner) hlt)
      rw [starting_close, starting_abandon, hstarting]

/-- The text of a raw text element. -/
theorem rawText (h : a.Agrees s base (.raw name i)) (hle : i ≤ j) :
    ((pendingText i j).foldl (step s) a).Agrees s base (.rawEnd name j) := by
  cases h with
  | @raw _ _ e rest hstarting hstack hopened hchildren htag hrest =>
    unfold pendingText
    split_ifs with hlt
    · show (a.attachLeaf .text ⟨i, j⟩).Agrees s base (.rawEnd name j)
      unfold attachLeaf attach
      rw [if_pos hlt, hstack]
      have hwithin : Within (Node.Read s) i j (.cons { kind := .text, span := ⟨i, j⟩ } .nil .nil) :=
        within_leaf (by decide) hlt
      refine .rawEnd hstarting rfl
        { hopened with laid := ⟨le_rfl, hwithin, hopened.laid⟩ } hle (fun m hm => ?_) htag hrest
      dsimp only at hm
      rw [hchildren] at hm
      obtain rfl := List.mem_singleton.1 hm
      rfl
    · obtain rfl : i = j := by omega
      refine .rawEnd hstarting hstack hopened le_rfl (fun m hm => ?_) htag hrest
      rw [hchildren] at hm
      cases hm

/-- What looks like the end tag of a raw text element. -/
theorem rawClose {k stop : ℕ} (h : a.Agrees s base (.rawEnd name i))
    (hname : isRawTextName name = true) (hat : EndTagAt (octets s) name i)
    (hk : k = i + 2 + name.length ∨ (octets s)[i + 2 + name.length]? = some '/')
    (hlt : i < min (stop + 1) (size s)) :
    (step s a (.closeTag i ⟨i + 2, k⟩ stop)).Agrees s base (.outside (min (stop + 1) (size s))) := by
  cases h with
  | @rawEnd _ _ b e rest hstarting hstack hopened hb hchildren htag hrest =>
    unfold step
    dsimp only
    rcases hmatching : a.matching? (spelling s ⟨i + 2, k⟩) with _ | inner
    · -- Only a slash behind the name keeps the end tag from closing the element.
      have hslash : (octets s)[i + 2 + name.length]? = some '/' := by
        refine hk.resolve_left fun hk => ?_
        subst hk
        have hnone := List.findIdx?_eq_none_iff.1 (Option.or_eq_none_iff.1 hmatching).2 e
          (hstack ▸ List.mem_cons_self)
        rw [spelling_endTag hname hat htag] at hnone
        cases hnone
      have hstacked : Stacked s base a.roots (min (stop + 1) (size s)) a.stack := by
        rw [hstack]
        refine ⟨⟨b, hopened.mono hlt.le⟩, fun _ x hx => ⟨i, ?_, hlt, ?_⟩, hrest⟩
        · rw [Option.mem_def, hopened.startTagEnd] at hx
          cases hx
          exact hb
        · rw [htag]
          exact ⟨hat, hslash⟩
      dsimp only
      split_ifs
      · exact .outside hstarting hstacked
      · exact .outside hstarting hstacked
    · dsimp only
      refine .outside (by rw [starting_close, starting_abandon, hstarting]) ?_
      cases inner with
      | zero =>
        refine close_stacked hstack hrest hopened ⟨_, some i, rfl⟩ rfl ?_ fun _ _ => .inl hchildren
        rintro x ⟨⟩
        exact hlt
      | succ inner => exact close_endTag (abandon_opened hstack hrest hopened inner) hlt

theorem finish_outside (h : a.Agrees s base (.outside (size s))) :
    Within (Node.Read s) base (size s) (prependReversed (step s a .finish).roots .nil) := by
  cases h with
  | outside hstarting hstacked =>
    unfold step settle
    dsimp only
    rw [hstarting]
    exact abandon_all (abandon_stacked hstacked _)

theorem finish_tag (h : a.Agrees s base (.tag name i)) (hi : i ≤ size s) :
    Within (Node.Read s) base (size s) (prependReversed (step s a .finish).roots .nil) := by
  cases h with
  | @tag _ _ n hstarting hn hstacked =>
    have hlt : n.span.start < size s := hn.lt.trans_le (hn.le.trans hi)
    unfold step settle
    dsimp only
    rw [hstarting]
    refine abandon_all (abandon_stacked (attach_stacked (a := { a with starting := none })
      (n := { n with span.stop := size s }) hstacked le_rfl (.leaf le_rfl hlt hn.startTagEnd
        ⟨fun _ => hn.opens, fun _ x hx => ?_⟩ (.nil le_rfl))) _)
    rw [Option.mem_def, hn.startTagEnd] at hx
    cases hx

theorem finish_rawEnd (h : a.Agrees s base (.rawEnd name (size s))) :
    Within (Node.Read s) base (size s) (prependReversed (step s a .finish).roots .nil) := by
  cases h with
  | @rawEnd _ _ b e rest hstarting hstack hopened _ _ _ hrest =>
    unfold step settle
    dsimp only
    rw [hstarting]
    refine abandon_all ?_
    dsimp only
    rw [show a.stack.length = rest.length + 1 from hstack ▸ rfl]
    exact abandon_opened hstack hrest hopened rest.length

end Agrees

/-- **Assembly.** Taking a stream of tokens builds a nested forest. -/
theorem within_of_stream (h : Stream (octets s) p ts) (ha : a.Agrees s base p) :
    Within (Node.Read s) base (size s) (prependReversed (ts.foldl (step s) a).roots .nil) := by
  have hsize := length_octets s
  induction h generalizing a with
  | finish => exact (hsize ▸ ha).finish_outside
  | finishTag hi => exact ha.finish_tag (hsize ▸ hi)
  | finishRaw => exact (hsize ▸ ha).finish_rawEnd
  | error _ _ _ ih => exact ih (ha.failed _)
  | leaf ht hlt _ _ ih => exact ih (ha.leaf ht hlt)
  | openName hopens hlt hj _ ih => exact ih (ha.openName hopens hlt (hsize ▸ hj))
  | attributeName hle hlt _ _ ih => exact ih (ha.attributed (hle.trans hlt.le) fun n => ⟨_, rfl⟩)
  | attributeValue hle hr _ _ ih =>
    exact ih (ha.attributed (hle.trans (Value.rawSpan_le hr)) fun n => ⟨_, rfl⟩)
  | shorthand hle hlt _ _ ih => exact ih (ha.attributed (by omega) fun n => ⟨_, rfl⟩)
  | openEnd hle _ _ ih => exact ih (ha.openEnd hle)
  | selfClose hle _ _ ih => exact ih (ha.settled hle)
  | closeTag hname hle hstop hlen _ ih =>
    rw [hsize] at hlen ih
    exact ih (ha.closeTag (by omega))
  | rawText _ hle _ _ _ _ ih =>
    rw [List.foldl_append]
    exact ih (ha.rawText hle)
  | rawClose hname hat hk hj hstop hlen _ ih =>
    rw [hsize] at hlen ih
    exact ih (ha.rawClose hname hat hk (by omega))

end Assembly

/-- **Nesting.** The forest of a document is nested and begins where the markup begins. -/
theorem Document.within (s : String) :
    Within (Node.Read s) (min (markupStart (FrontMatter.scan s) s) (size s)) (size s)
      (Document.ofText s).forest := by
  refine Assembly.within_of_stream (tokensFrom_stream s _) (.outside rfl ?_)
  exact le_rfl

end Polyglot.Markup
