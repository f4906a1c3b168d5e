import Polyglot.Proofs.Data.Coverage
import Polyglot.Proofs.Text.Spans

/-!
# The order of data

The keys and values of a tree stand in the text one behind the other, and each collection around its
parts, whether the block has errors or not (`Document.ofText_lies`). A flow collection lies within
the octets that it takes. A block lies in front of the lines that it leaves, which is what the parts
behind it begin on.
-/

namespace Polyglot.Data

variable {s : String} {i j k start stop : ℕ} {cs : List Char} {l m : Line} {lines rest : List Line}
  {c : Cursor} {pairs : List (Scalar × Tree)} {items : List Tree}

/-! ## Trees in order -/

mutual

/-- The tree begins at `i` or behind, and its parts stand in it one behind the other. -/
def Tree.LiesFrom (i : ℕ) : Tree → Prop
  | .scalar x => i ≤ x.span.start ∧ x.span.start ≤ x.span.stop
  | .mapping _ r pairs => i ≤ r.start ∧ PairsLie r.start r.stop pairs
  | .sequence _ r items => i ≤ r.start ∧ ItemsLie r.start r.stop items

/-- The pairs stand between `i` and `j`, each behind the one before and each value behind its
key. -/
def PairsLie (i j : ℕ) : List (Scalar × Tree) → Prop
  | [] => i ≤ j
  | (key, value) :: rest =>
    i ≤ key.span.start ∧ key.span.start ≤ key.span.stop ∧ value.LiesFrom key.span.stop ∧
      PairsLie value.span.stop j rest

/-- The items stand between `i` and `j`, each behind the one before. -/
def ItemsLie (i j : ℕ) : List Tree → Prop
  | [] => i ≤ j
  | item :: rest => item.LiesFrom i ∧ ItemsLie item.span.stop j rest

end

mutual

theorem Tree.LiesFrom.le :
    ∀ {i : ℕ} {t : Tree}, t.LiesFrom i → i ≤ t.span.start ∧ t.span.start ≤ t.span.stop
  | _, .scalar _, h => by
    rw [Tree.LiesFrom] at h
    exact h
  | _, .mapping _ _ _, h => by
    rw [Tree.LiesFrom] at h
    exact ⟨h.1, h.2.le⟩
  | _, .sequence _ _ _, h => by
    rw [Tree.LiesFrom] at h
    exact ⟨h.1, h.2.le⟩

theorem PairsLie.le : ∀ {i j : ℕ} {pairs : List (Scalar × Tree)}, PairsLie i j pairs → i ≤ j
  | _, _, [], h => by
    rw [PairsLie] at h
    exact h
  | _, _, (_, _) :: _, h => by
    rw [PairsLie] at h
    obtain ⟨hstart, hkey, hvalue, hrest⟩ := h
    have hvalue := hvalue.le
    have hrest := hrest.le
    omega

theorem ItemsLie.le : ∀ {i j : ℕ} {items : List Tree}, ItemsLie i j items → i ≤ j
  | _, _, [], h => by
    rw [ItemsLie] at h
    exact h
  | _, _, _ :: _, h => by
    rw [ItemsLie] at h
    have hitem := h.1.le
    have hrest := h.2.le
    omega

end

theorem Tree.LiesFrom.mono {t : Tree} (h : t.LiesFrom i) (hle : j ≤ i) : t.LiesFrom j := by
  cases t <;>
  · rw [Tree.LiesFrom] at h ⊢
    exact ⟨hle.trans h.1, h.2⟩

theorem PairsLie.mono_left (h : PairsLie i k pairs) (hle : j ≤ i) : PairsLie j k pairs := by
  cases pairs with
  | nil =>
    rw [PairsLie] at h ⊢
    exact hle.trans h
  | cons p rest =>
    rw [PairsLie] at h ⊢
    exact ⟨hle.trans h.1, h.2⟩

theorem ItemsLie.mono_left (h : ItemsLie i k items) (hle : j ≤ i) : ItemsLie j k items := by
  cases items with
  | nil =>
    rw [ItemsLie] at h ⊢
    exact hle.trans h
  | cons item rest =>
    rw [ItemsLie] at h ⊢
    exact ⟨h.1.mono hle, h.2⟩

theorem PairsLie.stop_le (h : PairsLie i j pairs) :
    ∀ p ∈ pairs, p.1.span.stop ≤ j ∧ p.2.span.stop ≤ j := by
  induction pairs generalizing i with
  | nil => exact nofun
  | cons p rest ih =>
    rw [PairsLie] at h
    obtain ⟨-, -, hvalue, hrest⟩ := h
    exact List.forall_mem_cons.2
      ⟨⟨(hvalue.le.1.trans hvalue.le.2).trans hrest.le, hrest.le⟩, ih hrest⟩

theorem ItemsLie.stop_le (h : ItemsLie i j items) : ∀ t ∈ items, t.span.stop ≤ j := by
  induction items generalizing i with
  | nil => exact nofun
  | cons t rest ih =>
    rw [ItemsLie] at h
    exact List.forall_mem_cons.2 ⟨h.2.le, ih h.2⟩

/-- Pairs stand in front of every place that their values end in front of. -/
theorem PairsLie.resize (h : PairsLie i j pairs) (hle : i ≤ k)
    (hall : ∀ p ∈ pairs, p.2.span.stop ≤ k) : PairsLie i k pairs := by
  induction pairs generalizing i with
  | nil =>
    rw [PairsLie]
    exact hle
  | cons p rest ih =>
    obtain ⟨hp, hall⟩ := List.forall_mem_cons.1 hall
    rw [PairsLie] at h ⊢
    exact ⟨h.1, h.2.1, h.2.2.1, ih h.2.2.2 hp hall⟩

theorem ItemsLie.resize (h : ItemsLie i j items) (hle : i ≤ k)
    (hall : ∀ t ∈ items, t.span.stop ≤ k) : ItemsLie i k items := by
  induction items generalizing i with
  | nil =>
    rw [ItemsLie]
    exact hle
  | cons t rest ih =>
    obtain ⟨ht, hall⟩ := List.forall_mem_cons.1 hall
    rw [ItemsLie] at h ⊢
    exact ⟨h.1, ih h.2 ht hall⟩

/-! ## Tokens -/

mutual

/-- The spans of all keys and scalars, in order. -/
def Tree.tokens : Tree → List Span
  | .scalar x => [x.span]
  | .mapping _ _ pairs => pairTokens pairs
  | .sequence _ _ items => itemTokens items

def Tree.pairTokens : List (Scalar × Tree) → List Span
  | [] => []
  | (key, value) :: rest => key.span :: value.tokens ++ pairTokens rest

def Tree.itemTokens : List Tree → List Span
  | [] => []
  | item :: rest => item.tokens ++ itemTokens rest

end

mutual

/-- The tokens of a tree that lies in order stand one behind the other. -/
theorem Tree.LiesFrom.inOrder :
    ∀ {i : ℕ} {t : Tree}, t.LiesFrom i → InOrder i t.span.stop t.tokens
  | _, .scalar _, h => by
    rw [Tree.LiesFrom] at h
    rw [Tree.tokens]
    exact .cons h.1 h.2 (.nil le_rfl)
  | _, .mapping _ _ _, h => by
    rw [Tree.LiesFrom] at h
    rw [Tree.tokens]
    exact h.2.inOrder.mono_left h.1
  | _, .sequence _ _ _, h => by
    rw [Tree.LiesFrom] at h
    rw [Tree.tokens]
    exact h.2.inOrder.mono_left h.1

theorem PairsLie.inOrder :
    ∀ {i j : ℕ} {pairs : List (Scalar × Tree)}, PairsLie i j pairs →
      InOrder i j (Tree.pairTokens pairs)
  | _, _, [], h => by
    rw [PairsLie] at h
    rw [Tree.pairTokens]
    exact .nil h
  | _, _, (_, _) :: _, h => by
    rw [PairsLie] at h
    rw [Tree.pairTokens]
    exact .cons h.1 h.2.1 (h.2.2.1.inOrder.append h.2.2.2.inOrder)

theorem ItemsLie.inOrder :
    ∀ {i j : ℕ} {items : List Tree}, ItemsLie i j items → InOrder i j (Tree.itemTokens items)
  | _, _, [], h => by
    rw [ItemsLie] at h
    rw [Tree.itemTokens]
    exact .nil h
  | _, _, _ :: _, h => by
    rw [ItemsLie] at h
    rw [Tree.itemTokens]
    exact h.1.inOrder.append h.2.inOrder

end

/-! ## Scalars -/

/-- A quoted scalar begins where it is read, and lies within what it takes. -/
theorem quotedScalar_span {q : Char} {tail : List Char} {t : Taken Scalar}
    (h : quotedScalar s start (q :: tail) = .ok t) :
    t.value.span = .withLength start t.used ∧ t.used ≤ tail.length + 1 := by
  unfold quotedScalar at h
  dsimp only [List.headD_cons, List.tail_cons] at h
  rcases hn : beforeClosingQuote? q tail with _ | n
  · rw [hn] at h
    obtain ⟨text, -, h⟩ := exists_of_bind_eq_ok h
    obtain ⟨source, -, h⟩ := exists_of_bind_eq_ok h
    obtain rfl := Except.ok.inj h
    dsimp only
    split_ifs <;> simp [Span.length, Span.withLength]
  · rw [hn] at h
    have hlt := (List.getElem?_eq_some_iff.1 (getElem?_beforeClosingQuote hn)).1
    obtain ⟨text, -, h⟩ := exists_of_bind_eq_ok h
    obtain ⟨source, -, h⟩ := exists_of_bind_eq_ok h
    obtain rfl := Except.ok.inj h
    dsimp only
    split_ifs <;> simp [Span.length, Span.withLength] <;> omega

theorem plainScalar_span {r : Span} {x : Scalar} (h : plainScalar s r = .ok x) : x.span = r := by
  unfold plainScalar at h
  obtain ⟨source, -, h⟩ := exists_of_bind_eq_ok h
  obtain rfl := Except.ok.inj h
  rfl

theorem plainLength_le (cs : List Char) : plainLength cs ≤ cs.length := isSeam_plainLength.le_length

theorem flowPlainLength_le (previous : Option Char) (cs : List Char) :
    flowPlainLength previous cs ≤ cs.length := halts_flowPlainLength.isSeam.le_length

/-- What is taken as a scalar: it begins at `start` and lies within the octets that are taken. -/
structure Taken.LiesAt (start size : ℕ) (t : Taken Scalar) : Prop where
  start_eq : t.value.span.start = start
  start_le : start ≤ t.value.span.stop
  stop_le : t.value.span.stop ≤ start + t.used
  used_le : t.used ≤ size

/-- A key, its value behind it, and the pairs behind both. -/
theorem PairsLie.of_key {key : Taken Scalar} {value : Tree} {size : ℕ} (hkey : key.LiesAt start size)
    (hi : i ≤ start) (hvalue : value.LiesFrom (start + key.used))
    (hpairs : PairsLie value.span.stop j pairs) : PairsLie i j ((key.value, value) :: pairs) := by
  obtain ⟨hstart, hle, hstop, -⟩ := hkey
  rw [PairsLie]
  exact ⟨by omega, by omega, hvalue.mono hstop, hpairs⟩

theorem quotedScalar_liesAt {t : Taken Scalar}
    (hquote : (cs.head?.any fun q => q == '"' || q == '\'') = true)
    (h : quotedScalar s start cs = .ok t) : t.LiesAt start cs.length := by
  obtain ⟨q, tail, rfl, -⟩ := exists_quote_of_head hquote
  obtain ⟨hspan, hused⟩ := quotedScalar_span h
  have hstop : t.value.span.stop = start + t.used := congrArg Span.stop hspan
  exact ⟨congrArg Span.start hspan, by omega, hstop.le, hused⟩

theorem blockKey_liesAt {t : Taken Scalar} (h : blockKey s start cs = .ok t) :
    t.LiesAt start cs.length := by
  unfold blockKey at h
  split_ifs at h with hquote
  · exact quotedScalar_liesAt hquote h
  · obtain ⟨x, hx, h⟩ := exists_of_bind_eq_ok h
    obtain rfl := Except.ok.inj h
    have hspan := plainScalar_span hx
    have hstop : x.span.stop = start + cs.length := congrArg Span.stop hspan
    exact ⟨congrArg Span.start hspan, by dsimp only; omega, hstop.le, le_rfl⟩

/-! ## Flow collections -/

theorem flowKey_liesAt {t : Taken Scalar} (h : flowKey s c = .ok t) :
    t.LiesAt c.offset c.rest.length := by
  unfold flowKey at h
  split_ifs at h with hquote
  · exact quotedScalar_liesAt hquote h
  · unfold flowPlain at h
    obtain ⟨x, hx, h⟩ := exists_of_bind_eq_ok h
    obtain rfl := Except.ok.inj h
    have hspan := plainScalar_span hx
    have hlength := flowPlainLength_le none c.rest
    have hkept := (List.dropWhile_suffix isFlowBlank
      (l := (c.rest.take (flowPlainLength none c.rest)).reverse)).length_le
    rw [List.length_reverse, List.length_take] at hkept
    have hstop : x.span.stop = c.offset + _ := congrArg Span.stop hspan
    exact ⟨congrArg Span.start hspan, by dsimp only; omega, by dsimp only; omega, hlength⟩

theorem finishEntry_used_le (c : Cursor) (closer : Char) :
    (finishEntry c closer).used ≤ c.rest.length := by
  have hgap := c.gap_le
  rw [finishEntry_eq]
  rcases hd : c.rest.drop c.gap with _ | ⟨d, t⟩
  · exact hgap
  · have hlt : c.gap + 1 ≤ c.rest.length := by
      have hlen := congrArg List.length hd
      rw [List.length_drop, List.length_cons] at hlen
      omega
    dsimp only
    split_ifs
    · exact hlt
    · exact hgap
    · exact hlt

/-- From one entry to the next: forward, and not past the end. -/
theorem entryStep_bounds {used : ℕ} (closer : Char) (hused : used ≤ c.rest.length)
    (hne : 0 < c.rest.length) :
    used ≤ max 1 (used + (finishEntry (c.advance used) closer).used) ∧
      1 ≤ max 1 (used + (finishEntry (c.advance used) closer).used) ∧
      max 1 (used + (finishEntry (c.advance used) closer).used) ≤ c.rest.length := by
  have hfinish := finishEntry_used_le (c.advance used) closer
  rw [Cursor.length_rest_advance] at hfinish
  omega

/-- A tree that is taken from octets lies within them. -/
structure Taken.LiesIn (c : Cursor) (t : Taken Tree) : Prop where
  value : t.value.LiesFrom c.offset
  stop_le : t.value.span.stop ≤ c.offset + t.used
  used_le : t.used ≤ c.rest.length

/-- What a step behind the blanks leaves of the octets. -/
theorem Cursor.skip_advance_place (hk : k ≤ c.skip.rest.length) :
    (c.skip.advance k).offset = c.offset + (c.gap + k) ∧
      (c.skip.advance k).rest.length = c.rest.length - (c.gap + k) ∧ c.gap + k ≤ c.rest.length := by
  have hle := gap_add_le hk
  rw [c.skip_advance]
  exact ⟨offset_advance hle, length_rest_advance .., hle⟩

theorem Taken.LiesIn.of_advance {t u : Taken Tree} (h : t.LiesIn (c.advance k))
    (hk : k ≤ c.rest.length) (hvalue : u.value = t.value) (hused : u.used = k + t.used) :
    u.LiesIn c := by
  have hoffset := Cursor.offset_advance hk
  obtain ⟨hlies, hstop, hlen⟩ := h
  rw [Cursor.length_rest_advance] at hlen
  refine ⟨?_, ?_, by omega⟩
  all_goals rw [hvalue]
  · exact hlies.mono (by omega)
  · omega

theorem Taken.LiesIn.of_skip_advance {t u : Taken Tree} (h : t.LiesIn (c.skip.advance k))
    (hk : k ≤ c.skip.rest.length) (hvalue : u.value = t.value) (hused : u.used = c.gap + k + t.used) :
    u.LiesIn c := by
  rw [c.skip_advance] at h
  exact h.of_advance (Cursor.gap_add_le hk) hvalue hused

/-- A collection, from what stands behind its opening bracket. -/
theorem Taken.LiesIn.bracketed {used : ℕ} {u : Taken Tree} (hused : used ≤ (c.skip.advance 1).rest.length)
    (hlen : 1 ≤ c.skip.rest.length) (hvalue : u.value.LiesFrom c.skip.offset)
    (hspan : u.value.span = .withLength c.skip.offset (1 + used))
    (heq : u.used = c.gap + 1 + used) : u.LiesIn c := by
  obtain ⟨hoffset, hlength, hle⟩ := Cursor.skip_advance_place hlen
  have hskip := c.offset_skip
  refine ⟨hvalue.mono (by omega), ?_, by omega⟩
  rw [hspan]
  show c.skip.offset + (1 + used) ≤ _
  omega

theorem Taken.LiesAt.liesIn {t : Taken Scalar} {u : Taken Tree} (h : t.LiesAt c.offset c.rest.length)
    (hvalue : u.value = .scalar t.value) (hused : u.used = t.used) : u.LiesIn c := by
  obtain ⟨hstart, hle, hstop, hlen⟩ := h
  refine ⟨?_, ?_, by omega⟩
  all_goals rw [hvalue]
  · rw [Tree.LiesFrom]
    omega
  · show t.value.span.stop ≤ _
    omega

theorem flowValue_liesIn {t : Taken Tree} (h : flowValue s c = .ok t)
    (htree : ∀ {u : Taken Tree}, c.skip.rest.head? = some ':' →
      flowTree s (c.skip.advance 1) = .ok u → u.LiesIn (c.skip.advance 1)) : t.LiesIn c := by
  unfold flowValue at h
  split_ifs at h with hcolon
  · obtain ⟨u, hu, h⟩ := exists_of_map_eq_ok h
    obtain rfl := h
    have hlen := (Cursor.length_skip_pos (Cursor.ne_nil_of_head hcolon)).1
    exact (htree hcolon hu).of_skip_advance hlen rfl rfl
  · obtain rfl := Except.ok.inj h
    refine ⟨?_, c.offset_skip.le, c.gap_le⟩
    rw [Tree.LiesFrom]
    exact ⟨c.offset_skip ▸ Nat.le_add_right _ _, le_rfl⟩

mutual

/-- **Flow collections.** The values of a flow collection stand in order within the octets that they
take. -/
theorem flowTree_liesIn (c : Cursor) {t : Taken Tree} (h : flowTree s c = .ok t) : t.LiesIn c := by
  have hgap := c.gap_le
  have hskip := c.offset_skip
  have hlength : c.skip.rest.length = c.rest.length - c.gap := Cursor.length_rest_advance ..
  rw [flowTree_eq] at h
  split_ifs at h with hnil hseq hmap
  · obtain rfl := Except.ok.inj h
    refine ⟨?_, hskip.le, hgap⟩
    rw [Tree.LiesFrom]
    exact ⟨hskip ▸ Nat.le_add_right _ _, le_rfl⟩
  · have hlen := Cursor.length_skip_pos hnil
    obtain ⟨items, hitems, h⟩ := exists_of_bind_eq_ok h
    obtain rfl := Except.ok.inj h
    have hlies := flowItems_lie _ (c.skip.advance 1) hitems
    rw [Cursor.offset_advance hlen.1, Nat.add_assoc] at hlies
    refine Taken.LiesIn.bracketed hlies.2 hlen.1 ?_ rfl rfl
    rw [Tree.LiesFrom]
    exact ⟨le_rfl, hlies.1.mono_left (Nat.le_add_right _ _)⟩
  · have hlen := Cursor.length_skip_pos hnil
    obtain ⟨pairs, hpairs, h⟩ := exists_of_bind_eq_ok h
    obtain rfl := Except.ok.inj h
    have hlies := flowPairs_lie _ [] (c.skip.advance 1) hpairs
    rw [Cursor.offset_advance hlen.1, Nat.add_assoc] at hlies
    refine Taken.LiesIn.bracketed hlies.2 hlen.1 ?_ rfl rfl
    rw [Tree.LiesFrom]
    exact ⟨le_rfl, hlies.1.mono_left (Nat.le_add_right _ _)⟩
  · obtain ⟨x, hx, h⟩ := exists_of_bind_eq_ok h
    obtain rfl := Except.ok.inj h
    have hlies := (flowKey_liesAt hx).liesIn (u := ⟨.scalar x.value, x.used, x.errors⟩) rfl rfl
    exact hlies.of_advance hgap rfl rfl
termination_by 2 * c.rest.length + 1
decreasing_by
  all_goals
    simp only [Cursor.length_rest_advance]
    omega

theorem flowItems_lie (opened : ℕ) (c : Cursor) {t : Taken (List Tree)}
    (h : flowItems s opened c = .ok t) :
    ItemsLie c.offset (c.offset + t.used) t.value ∧ t.used ≤ c.rest.length := by
  have hgap := c.gap_le
  have hskip := c.offset_skip
  rw [flowItems_eq] at h
  split_ifs at h with hnil hclose hcomma
  · obtain rfl := Except.ok.inj h
    rw [ItemsLie]
    exact ⟨Nat.le_add_right _ _, hgap⟩
  · have hlen := Cursor.length_skip_pos hnil
    obtain rfl := Except.ok.inj h
    rw [ItemsLie]
    exact ⟨Nat.le_add_right _ _, Cursor.gap_add_le hlen.1⟩
  · have hlen := Cursor.length_skip_pos hnil
    obtain ⟨more, hmore, h⟩ := exists_of_bind_eq_ok h
    obtain rfl := Except.ok.inj h
    obtain ⟨hlie, hused⟩ := flowItems_lie opened (c.skip.advance 1) hmore
    obtain ⟨hoffset, hlength, hle⟩ := Cursor.skip_advance_place (k := 1) hlen.1
    rw [hoffset, Nat.add_assoc] at hlie
    exact ⟨hlie.mono_left (Nat.le_add_right _ _), by dsimp only; omega⟩
  · have hlen := Cursor.length_skip_pos hnil
    obtain ⟨item, hitem, h⟩ := exists_of_bind_eq_ok h
    have hitem := flowTree_liesIn c.skip hitem
    obtain ⟨hstep, hpos, hend⟩ := entryStep_bounds ']' hitem.used_le hlen.1
    dsimp only at h
    generalize max 1 (item.used + (finishEntry (c.skip.advance item.used) ']').used) = step at *
    obtain ⟨more, hmore, h⟩ := exists_of_bind_eq_ok h
    obtain rfl := Except.ok.inj h
    obtain ⟨hlie, hused⟩ := flowItems_lie opened (c.skip.advance step) hmore
    obtain ⟨hoffset, hlength, hle⟩ := Cursor.skip_advance_place hend
    have hstop := hitem.stop_le
    rw [hoffset, Nat.add_assoc] at hlie
    rw [ItemsLie]
    exact ⟨⟨hitem.value.mono (by omega), hlie.mono_left (by omega)⟩, by dsimp only; omega⟩
termination_by 2 * c.rest.length + 2
decreasing_by
  all_goals
    try simp only [Cursor.length_rest_advance]
    omega

theorem flowPairs_lie (opened : ℕ) (seen : List String) (c : Cursor)
    {t : Taken (List (Scalar × Tree))} (h : flowPairs s opened seen c = .ok t) :
    PairsLie c.offset (c.offset + t.used) t.value ∧ t.used ≤ c.rest.length := by
  have hgap := c.gap_le
  have hskip := c.offset_skip
  rw [flowPairs_eq] at h
  split_ifs at h with hnil hclose hcomma
  · obtain rfl := Except.ok.inj h
    rw [PairsLie]
    exact ⟨Nat.le_add_right _ _, hgap⟩
  · have hlen := Cursor.length_skip_pos hnil
    obtain rfl := Except.ok.inj h
    rw [PairsLie]
    exact ⟨Nat.le_add_right _ _, Cursor.gap_add_le hlen.1⟩
  · have hlen := Cursor.length_skip_pos hnil
    obtain ⟨more, hmore, h⟩ := exists_of_bind_eq_ok h
    obtain rfl := Except.ok.inj h
    obtain ⟨hlie, hused⟩ := flowPairs_lie opened seen (c.skip.advance 1) hmore
    obtain ⟨hoffset, hlength, hle⟩ := Cursor.skip_advance_place (k := 1) hlen.1
    rw [hoffset, Nat.add_assoc] at hlie
    exact ⟨hlie.mono_left (Nat.le_add_right _ _), by dsimp only; omega⟩
  · have hlen := Cursor.length_skip_pos hnil
    obtain ⟨key, hkey, h⟩ := exists_of_bind_eq_ok h
    obtain ⟨value, hvalue, h⟩ := exists_of_bind_eq_ok h
    have hkey := flowKey_liesAt hkey
    have hkeyused := hkey.used_le
    have hafter : (c.skip.advance key.used).rest.length = c.skip.rest.length - key.used :=
      Cursor.length_rest_advance ..
    have hvalue : value.LiesIn (c.skip.advance key.used) := by
      refine flowValue_liesIn hvalue fun hcolon hu => ?_
      have hlen' := Cursor.length_skip_pos (Cursor.ne_nil_of_head hcolon)
      exact flowTree_liesIn _ hu
    have hused : key.used + value.used ≤ c.skip.rest.length := by
      have hle := hvalue.used_le
      omega
    obtain ⟨hstep, hpos, hend⟩ := entryStep_bounds '\x7d' hused hlen.1
    dsimp only at h
    generalize max 1 (key.used + value.used +
      (finishEntry (c.skip.advance (key.used + value.used)) '\x7d').used) = step at *
    obtain ⟨more, hmore, h⟩ := exists_of_bind_eq_ok h
    obtain rfl := Except.ok.inj h
    obtain ⟨hlie, hmoreused⟩ := flowPairs_lie opened _ (c.skip.advance step) hmore
    obtain ⟨hoffset, hlength, hle⟩ := Cursor.skip_advance_place hend
    have hplace := Cursor.offset_advance hkeyused
    have hstop := hvalue.stop_le
    rw [hoffset, Nat.add_assoc] at hlie
    exact ⟨.of_key hkey (by omega) (hplace ▸ hvalue.value) (hlie.mono_left (by omega)),
      by dsimp only; omega⟩
termination_by 2 * c.rest.length + 2
decreasing_by
  all_goals
    try simp only [Cursor.length_rest_advance]
    omega

end

/-! ## Values on lines -/

/-- The content of each line begins at `i` or behind. -/
def Behind (i : ℕ) (lines : List Line) : Prop := ∀ m ∈ lines, i ≤ m.contentStart

theorem Behind.mono (h : Behind i lines) (hle : j ≤ i) : Behind j lines :=
  fun m hm => hle.trans (h m hm)

theorem Behind.drop (h : Behind i lines) (k : ℕ) : Behind i (lines.drop k) :=
  fun m hm => h m (List.mem_of_mem_drop hm)

theorem Behind.cons_drop {m n : ℕ} (h : Behind i ((lines.drop m).drop n)) :
    Behind i ((l :: lines).drop (1 + m + n)) := by
  rwa [Nat.add_assoc, Nat.add_comm 1, List.drop_succ_cons, ← List.drop_drop]

theorem LinesFrom.behind (h : LinesFrom s i lines) : Behind i lines :=
  fun _ hm => (h.le_start hm).trans (Nat.le_add_right _ _)

/-- Lines behind a line that lies in the text. -/
theorem LinesFrom.behind_content (h : LinesFrom s i (l :: lines)) : Behind l.contentEnd lines :=
  h.2.2.behind.mono h.2.1.contentEnd_le

/-- Without the lines that begin in front of `stop`. -/
theorem LinesFrom.behind_drop (h : LinesFrom s i lines) :
    Behind stop (lines.drop (lines.takeWhile fun m => m.start < stop).length) := by
  induction lines generalizing i with
  | nil => exact nofun
  | cons l ls ih =>
    by_cases hl : l.start < stop
    · rw [List.takeWhile_cons_of_pos (by simpa using hl)]
      exact ih h.tail
    · rw [List.takeWhile_cons_of_neg (by simpa using hl)]
      have hfrom : LinesFrom s l.start (l :: ls) := ⟨le_rfl, h.2⟩
      exact hfrom.behind.mono (Nat.le_of_not_lt hl)

/-- A plain scalar ends in front of the lines that it leaves; `used` counts the empty ones in front
of `lines` too. -/
theorem foldPlain_behind {parentIndent empty used : ℕ} {tail : String}
    (h : foldPlain s parentIndent empty lines = .ok (some (tail, stop, used)))
    (hlines : LinesFrom s i lines) :
    empty ≤ used ∧ i ≤ stop ∧ Behind stop (lines.drop (used - empty)) := by
  induction lines generalizing i empty tail stop used with
  | nil => cases h
  | cons l ls ih =>
    have hcontent := hlines.behind_content
    obtain ⟨hle, hl, hls⟩ := hlines
    have hstart := hl.start_le
    rw [foldPlain] at h
    by_cases hempty : l.isEmpty = true
    · rw [if_pos hempty] at h
      obtain ⟨hused, hstop, hbehind⟩ := ih h hls
      rw [show used - empty = used - (empty + 1) + 1 by omega, List.drop_succ_cons]
      exact ⟨by omega, by omega, hbehind⟩
    rw [if_neg hempty] at h
    by_cases hcontinues : continuesPlain parentIndent l = true
    · rw [if_pos hcontinues] at h
      have hindent : l.start ≤ l.contentStart := Nat.le_add_right _ _
      have hlength := plainLength_le l.content
      obtain ⟨text, -, h⟩ := exists_of_bind_eq_ok h
      obtain ⟨more, hmore, h⟩ := exists_of_bind_eq_ok h
      rcases more with _ | ⟨tail', stop', used'⟩
      · obtain ⟨-, rfl, rfl⟩ : _ ∧ l.contentStart + plainLength l.content = stop ∧
            empty + 1 = used := by simpa [Span.withLength, pure, Except.pure] using h
        rw [Nat.add_sub_cancel_left, List.drop_succ_cons, List.drop_zero]
        exact ⟨by omega, by omega, hcontent.mono (Nat.add_le_add_left hlength _)⟩
      · obtain ⟨-, rfl, rfl⟩ : _ ∧ stop' = stop ∧ empty + 1 + used' = used := by
          simpa [pure, Except.pure] using h
        obtain ⟨-, hstop, hbehind⟩ := ih hmore hls
        rw [show empty + 1 + used' - empty = used' + 1 by omega, List.drop_succ_cons]
        exact ⟨by omega, by omega, hbehind⟩
    · rw [if_neg hcontinues] at h
      cases h

/-- A block scalar ends in front of the lines that it leaves. -/
theorem blockText_behind {parentIndent empty : ℕ} {indent : Option ℕ} {b : BlockText}
    (h : blockText s parentIndent indent empty stop lines = .ok b) (hlines : LinesFrom s i lines)
    (hstop : stop ≤ i) : stop ≤ b.stop ∧ Behind b.stop (lines.drop b.used) := by
  induction lines generalizing i indent empty stop b with
  | nil =>
    obtain rfl := Except.ok.inj h
    exact ⟨le_rfl, nofun⟩
  | cons l ls ih =>
    have hbehind := hlines.behind
    obtain ⟨hle, hl, hls⟩ := hlines
    have hstart := hl.start_le
    rw [blockText] at h
    dsimp only at h
    split_ifs at h with hempty hout
    · obtain ⟨more, hmore, h⟩ := exists_of_bind_eq_ok h
      obtain rfl := Except.ok.inj h
      exact ih hmore hls (by omega)
    · obtain rfl := Except.ok.inj h
      exact ⟨le_rfl, hbehind.mono hstop⟩
    · obtain ⟨piece, -, h⟩ := exists_of_bind_eq_ok h
      obtain ⟨more, hmore, h⟩ := exists_of_bind_eq_ok h
      obtain rfl := Except.ok.inj h
      obtain ⟨hmorestop, hmorebehind⟩ := ih hmore hls le_rfl
      exact ⟨by dsimp only; omega, hmorebehind⟩

/-- A tree stands at `i` or behind, and in front of the lines that it leaves. -/
structure Taken.Lies (i : ℕ) (rest : List Line) (t : Taken Tree) : Prop where
  value : t.value.LiesFrom i
  behind : Behind t.value.span.stop (rest.drop t.used)

theorem Taken.Lies.mono {t : Taken Tree} (h : t.Lies i rest) (hle : j ≤ i) : t.Lies j rest :=
  ⟨h.value.mono hle, h.behind⟩

/-- A scalar that begins at `start` and ends in front of the lines that it leaves. -/
theorem Taken.Lies.of_scalar {x : Scalar} {t : Taken Tree} (hvalue : t.value = .scalar x)
    (hstart : x.span.start = start) (hle : start ≤ x.span.stop)
    (hbehind : Behind x.span.stop (rest.drop t.used)) : t.Lies start rest := by
  constructor
  all_goals rw [hvalue]
  · rw [Tree.LiesFrom]
    omega
  · exact hbehind

theorem blockPlain_lies {parentIndent : ℕ} {x : Taken Scalar}
    (h : blockPlain s start cs parentIndent rest = .ok x) (hi : start + cs.length ≤ i)
    (hrest : LinesFrom s i rest) :
    ({ x with value := .scalar x.value } : Taken Tree).Lies start rest := by
  have hlength := plainLength_le cs
  unfold blockPlain at h
  obtain ⟨more, hmore, h⟩ := exists_of_bind_eq_ok h
  rcases more with _ | ⟨tail, stop, used⟩
  · obtain ⟨scalar, hscalar, h⟩ := exists_of_bind_eq_ok h
    obtain rfl := Except.ok.inj h
    have hspan := plainScalar_span hscalar
    have hstop : scalar.span.stop = start + plainLength cs := congrArg Span.stop hspan
    exact .of_scalar rfl (congrArg Span.start hspan) (by dsimp only; omega)
      (hrest.behind.mono (by dsimp only; omega))
  · obtain ⟨head, -, h⟩ := exists_of_bind_eq_ok h
    obtain ⟨source, -, h⟩ := exists_of_bind_eq_ok h
    obtain rfl := Except.ok.inj h
    obtain ⟨-, hstop, hbehind⟩ := foldPlain_behind hmore hrest
    exact .of_scalar rfl rfl (show start ≤ stop by omega) hbehind

theorem blockScalar_lies {parentIndent : ℕ} {x : Taken Scalar}
    (h : blockScalar s start cs parentIndent rest = .ok x) (hi : start + cs.length ≤ i)
    (hrest : LinesFrom s i rest) :
    ({ x with value := .scalar x.value } : Taken Tree).Lies start rest := by
  have hlength := plainLength_le cs
  unfold blockScalar at h
  obtain ⟨header, -, h⟩ := exists_of_bind_eq_ok h
  obtain ⟨block, hblock, h⟩ := exists_of_bind_eq_ok h
  obtain ⟨source, -, h⟩ := exists_of_bind_eq_ok h
  obtain rfl := Except.ok.inj h
  have hheader : (Span.withLength start (plainLength cs)).stop = start + plainLength cs := rfl
  obtain ⟨hstop, hbehind⟩ := blockText_behind hblock hrest (by omega)
  exact .of_scalar rfl rfl (show start ≤ block.stop by omega) hbehind

/-- A flow collection ends in front of the lines that begin behind its extent. -/
theorem blockFlow_lies {parentIndent : ℕ} {t : Taken Tree} (hcs : cs ≠ [])
    (h : blockFlow s start cs parentIndent rest = .ok t) (hrest : LinesFrom s i rest) :
    t.Lies start rest := by
  have hlt := lt_flowStop s start parentIndent hcs rest
  rw [blockFlow_eq] at h
  obtain ⟨tree, htree, h⟩ := exists_of_bind_eq_ok h
  obtain rfl := Except.ok.inj h
  generalize flowStop s start cs parentIndent rest = stop at *
  obtain ⟨hvalue, hstop, hused⟩ := flowTree_liesIn _ htree
  have hlength : (octetsAt s ⟨start, stop⟩).length ≤ stop - start := by
    rw [octetsAt_eq, List.length_take]
    exact Nat.min_le_left _ _
  refine ⟨hvalue, ?_⟩
  dsimp only at hstop hused ⊢
  exact hrest.behind_drop.mono (by omega)

theorem inlineValue_lies {parentIndent : ℕ} {t : Taken Tree}
    (h : inlineValue s start cs parentIndent rest = .ok t) (hi : start + cs.length ≤ i)
    (hrest : LinesFrom s i rest) : t.Lies start rest := by
  have hquoted {q : Char} {tail : List Char} (hi : start + (q :: tail).length ≤ i) (h : (do
        let scalar ← quotedScalar s start (q :: tail)
        return ⟨.scalar scalar.value, 0, scalar.errors ++
          trailingErrors (start + scalar.used) ((q :: tail).drop scalar.used)⟩) =
            (.ok t : Except TornCharacter (Taken Tree))) : t.Lies start rest := by
    obtain ⟨x, hx, h⟩ := exists_of_bind_eq_ok h
    obtain rfl := Except.ok.inj h
    obtain ⟨hspan, hused⟩ := quotedScalar_span hx
    have hstop : x.value.span.stop = start + x.used := congrArg Span.stop hspan
    rw [List.length_cons] at hi
    exact .of_scalar rfl (congrArg Span.start hspan) (by omega) (hrest.behind.mono (by omega))
  unfold inlineValue at h
  split at h
  · exact hquoted hi h
  · exact hquoted hi h
  · exact blockFlow_lies (List.cons_ne_nil _ _) h hrest
  · exact blockFlow_lies (List.cons_ne_nil _ _) h hrest
  · obtain ⟨x, hx, h⟩ := exists_of_bind_eq_ok h
    obtain rfl := Except.ok.inj h
    exact blockScalar_lies hx hi hrest
  · obtain ⟨x, hx, h⟩ := exists_of_bind_eq_ok h
    obtain rfl := Except.ok.inj h
    exact blockScalar_lies hx hi hrest
  · obtain ⟨x, hx, h⟩ := exists_of_bind_eq_ok h
    obtain rfl := Except.ok.inj h
    exact blockPlain_lies hx hi hrest

/-! ## Blocks -/

theorem key_lt_colonEnd {extent : KeyExtent} (h : findKey? cs = some extent) :
    extent.key < extent.colonEnd := by
  unfold findKey? at h
  split at h
  all_goals try cases h
  split_ifs at h
  · obtain ⟨n, -, h⟩ := Option.bind_eq_some_iff.1 h
    dsimp only at h
    split_ifs at h
    obtain rfl := Option.some.inj h
    exact Nat.lt_succ_of_le (Nat.le_add_right _ _)
  · obtain ⟨n, -, rfl⟩ := Option.map_eq_some_iff.1 h
    exact Nat.lt_succ_of_le ((isPrefix_trimEnd _).length_le.trans (List.length_take_le _ _))

theorem foldl_max_le {α : Type} {f : α → ℕ} {xs : List α} (hi : i ≤ k) (hxs : ∀ x ∈ xs, f x ≤ k) :
    xs.foldl (fun stop x => max stop (f x)) i ≤ k := by
  induction xs generalizing i with
  | nil => exact hi
  | cons x xs ih =>
    obtain ⟨hx, hxs⟩ := List.forall_mem_cons.1 hxs
    exact ih (max_le hi hx) hxs

mutual

/-- **Blocks.** A block begins with its first line and ends in front of the lines that it leaves. -/
theorem block_lies (l : Line) (rest : List Line) (hl : l.Lies s)
    (hrest : LinesFrom s l.breakStart rest) (hblank : l.isBlank = false) {t : Taken Tree}
    (h : block s l rest = .ok t) : t.Lies l.contentStart rest := by
  have hlines : LinesFrom s l.start (l :: rest) := ⟨le_rfl, hl, hrest⟩
  have hbehind : Behind l.contentStart (l :: rest) := List.forall_mem_cons.2
    ⟨le_rfl, hlines.behind_content.mono (Nat.le_add_right _ _)⟩
  have hdrop {n : ℕ} (hn : 0 < n) : (l :: rest).drop n = rest.drop (n - 1) := by
    obtain ⟨m, rfl⟩ := Nat.exists_eq_succ_of_ne_zero hn.ne'
    rfl
  rw [block] at h
  split_ifs at h with hitem hkey
  · obtain ⟨items, hitems, h⟩ := exists_of_bind_eq_ok h
    obtain rfl := Except.ok.inj h
    obtain ⟨k, hlie, hdashes, hleft⟩ := blockItems_lie l.indent (l :: rest) hlines hbehind hitems
    rw [hdrop (used_blockItems_pos hblank hitem hitems)] at hleft
    have hstops : ∀ x ∈ items.value, max (x.1 + 1) x.2.span.stop ≤ k := fun x hx =>
      max_le (hdashes x hx) (hlie.stop_le _ (List.mem_map_of_mem hx))
    obtain ⟨hstart, hparts⟩ := @le_foldl_max l.contentStart _
      (fun x : ℕ × Tree => max (x.1 + 1) x.2.span.stop) items.value
    refine ⟨?_, hleft.mono (foldl_max_le hlie.le hstops)⟩
    rw [Tree.LiesFrom]
    refine ⟨le_rfl, hlie.resize hstart ?_⟩
    exact List.forall_mem_map.2 fun x hx => (le_max_right _ _).trans (hparts x hx)
  · obtain ⟨pairs, hpairs, h⟩ := exists_of_bind_eq_ok h
    obtain rfl := Except.ok.inj h
    obtain ⟨k, hlie, hleft⟩ := blockPairs_lie l.indent [] (l :: rest) hlines hbehind hpairs
    rw [hdrop (used_blockPairs_pos hblank (Bool.eq_false_iff.2 hitem) hkey hpairs)] at hleft
    have hstops : ∀ p ∈ pairs.value, max p.1.span.stop p.2.span.stop ≤ k := fun p hp =>
      max_le (hlie.stop_le p hp).1 (hlie.stop_le p hp).2
    obtain ⟨hstart, hparts⟩ := @le_foldl_max l.contentStart _
      (fun p : Scalar × Tree => max p.1.span.stop p.2.span.stop) pairs.value
    refine ⟨?_, hleft.mono (foldl_max_le hlie.le hstops)⟩
    rw [Tree.LiesFrom]
    exact ⟨le_rfl, hlie.resize hstart fun p hp => (le_max_right _ _).trans (hparts p hp)⟩
  · exact inlineValue_lies h hl.contentEnd_le hrest
termination_by 2 * weight (l :: rest) + 1

/-- The pairs stand in order up to some place in front of the lines that are left. -/
theorem blockPairs_lie {i j : ℕ} (indent : ℕ) (seen : List String) :
    (lines : List Line) → LinesFrom s i lines → Behind j lines →
      ∀ {t : Taken (List (Scalar × Tree))}, blockPairs s indent seen lines = .ok t →
        ∃ k, PairsLie j k t.value ∧ Behind k (lines.drop t.used)
  | [], _, _, t, h => by
    rw [blockPairs] at h
    obtain rfl := Except.ok.inj h
    refine ⟨j, ?_, nofun⟩
    rw [PairsLie]
  | l :: rest, ⟨hi, hl, hrest⟩, hbehind, t, h => by
    have hlines : LinesFrom s i (l :: rest) := ⟨hi, hl, hrest⟩
    obtain ⟨hstart, hbehinds⟩ := List.forall_mem_cons.1 hbehind
    have hweight := weight_cons l rest
    rw [blockPairs] at h
    split_ifs at h with hblank hout hmisplaced
    · obtain ⟨more, hmore, h⟩ := exists_of_bind_eq_ok h
      obtain rfl := Except.ok.inj h
      exact blockPairs_lie indent seen rest hrest hbehinds hmore
    · obtain rfl := Except.ok.inj h
      refine ⟨j, ?_, hbehind⟩
      rw [PairsLie]
    · obtain ⟨more, hmore, h⟩ := exists_of_bind_eq_ok h
      obtain rfl := Except.ok.inj h
      exact blockPairs_lie indent seen rest hrest hbehinds hmore
    · split at h
      · obtain ⟨more, hmore, h⟩ := exists_of_bind_eq_ok h
        obtain rfl := Except.ok.inj h
        exact blockPairs_lie indent seen rest hrest hbehinds hmore
      · next extent hkey =>
        have hpos := l.length_content_pos hblank
        obtain ⟨-, hend⟩ := hl.stretch_value hkey
        have hcolon := key_lt_colonEnd hkey
        have hseam := (isSeam_findKey hkey).2.le_length
        obtain ⟨key, hkey, h⟩ := exists_of_bind_eq_ok h
        obtain ⟨value, hvalue, h⟩ := exists_of_bind_eq_ok h
        obtain ⟨more, hmore, h⟩ := exists_of_bind_eq_ok h
        obtain rfl := Except.ok.inj h
        have hkey := blockKey_liesAt hkey
        have hkeyused := hkey.used_le
        rw [List.length_take] at hkeyused
        have hvalue : value.Lies (l.contentStart + extent.colonEnd) rest := by
          split_ifs at hvalue with hused
          · exact blockNested_lies rest hrest
              (hlines.behind_content.mono (Nat.add_le_add_left hseam _)) hvalue
          · have hlies := inlineValue_lies hvalue (hend ▸ hl.contentEnd_le) hrest
            exact hlies.mono (Nat.add_le_add_left (Nat.le_add_right _ _) _)
        have hdrop := weight_drop_le rest value.used
        obtain ⟨k, hlie, hleft⟩ := blockPairs_lie indent _ (rest.drop value.used) (hrest.drop _)
          hvalue.behind hmore
        exact ⟨k, .of_key hkey hstart (hvalue.value.mono (by omega)) hlie, hleft.cons_drop⟩
termination_by lines => 2 * weight lines
decreasing_by
  all_goals omega

theorem blockItems_lie {i j : ℕ} (indent : ℕ) :
    (lines : List Line) → LinesFrom s i lines → Behind j lines →
      ∀ {t : Taken (List (ℕ × Tree))}, blockItems s indent lines = .ok t →
        ∃ k, ItemsLie j k (t.value.map (·.2)) ∧ (∀ x ∈ t.value, x.1 + 1 ≤ k) ∧
          Behind k (lines.drop t.used)
  | [], _, _, t, h => by
    rw [blockItems] at h
    obtain rfl := Except.ok.inj h
    refine ⟨j, ?_, nofun, nofun⟩
    rw [List.map_nil, ItemsLie]
  | l :: rest, ⟨hi, hl, hrest⟩, hbehind, t, h => by
    have hlines : LinesFrom s i (l :: rest) := ⟨hi, hl, hrest⟩
    obtain ⟨hstart, hbehinds⟩ := List.forall_mem_cons.1 hbehind
    have hweight := weight_cons l rest
    have hnone : ItemsLie j j [] := by rw [ItemsLie]
    rw [blockItems] at h
    split_ifs at h with hblank hout hdeeper hitem
    · obtain ⟨more, hmore, h⟩ := exists_of_bind_eq_ok h
      obtain rfl := Except.ok.inj h
      exact blockItems_lie indent rest hrest hbehinds hmore
    · obtain rfl := Except.ok.inj h
      exact ⟨j, hnone, nofun, hbehind⟩
    · obtain ⟨more, hmore, h⟩ := exists_of_bind_eq_ok h
      obtain rfl := Except.ok.inj h
      exact blockItems_lie indent rest hrest hbehinds hmore
    · have hpos := l.length_content_pos hblank
      have hseam {k : ℕ} := isSeam_of_le_itemColumn (k := k) hitem
      have hadvance : weight (l.advance (1 + blanks (l.content.drop 1)) :: rest) <
          weight (l :: rest) := by
        simp only [weight_cons, Line.advance, List.length_drop]
        omega
      obtain ⟨item, hitem', h⟩ := exists_of_bind_eq_ok h
      obtain ⟨more, hmore, h⟩ := exists_of_bind_eq_ok h
      obtain rfl := Except.ok.inj h
      have hitem : item.Lies (l.contentStart + 1) rest := by
        split_ifs at hitem' with hused
        · exact blockNested_lies rest hrest
            (hlines.behind_content.mono (Nat.add_le_add_left hpos _)) hitem'
        · have hlies := block_lies _ rest (hl.advance fun j hj => hseam hj) hrest
            (Bool.eq_false_iff.2 hused) hitem'
          refine hlies.mono ?_
          show l.start + l.indent + 1 ≤ l.start + (l.indent + (1 + _))
          omega
      have hdrop := weight_drop_le rest item.used
      obtain ⟨k, hlie, hdashes, hleft⟩ := blockItems_lie indent (rest.drop item.used) (hrest.drop _)
        hitem.behind hmore
      have hle := hitem.value.le
      have hstop := hlie.le
      refine ⟨k, ?_, List.forall_mem_cons.2 ⟨by dsimp only; omega, hdashes⟩, hleft.cons_drop⟩
      rw [List.map_cons, ItemsLie]
      exact ⟨hitem.value.mono (by omega), hlie⟩
    · obtain rfl := Except.ok.inj h
      exact ⟨j, hnone, nofun, hbehind⟩
termination_by lines => 2 * weight lines
decreasing_by
  all_goals omega

theorem blockNested_lies {i anchor : ℕ} {parentIndent : ℕ} {underKey : Bool} (rest : List Line)
    (hlines : LinesFrom s i rest) (hanchor : Behind anchor rest) {t : Taken Tree}
    (h : blockNested s parentIndent underKey anchor rest = .ok t) : t.Lies anchor rest := by
  rcases hline : nestedLine? parentIndent underKey rest with _ | ⟨before, l⟩
  · rw [blockNested_of_eq_none hline] at h
    obtain rfl := Except.ok.inj h
    exact .of_scalar rfl rfl le_rfl hanchor
  · rw [blockNested_of_eq_some hline] at h
    have hweight := weight_nestedLine hline
    have hget := getElem?_of_nestedLine hline
    obtain ⟨hl, hafter⟩ := hlines.nested hget
    obtain ⟨tree, htree, h⟩ := exists_of_bind_eq_ok h
    obtain rfl := Except.ok.inj h
    have hlies := block_lies l (rest.drop (before + 1)) hl hafter (nestedLine?_split hline).2 htree
    refine ⟨hlies.value.mono (hanchor l (List.mem_of_getElem? hget)), ?_⟩
    dsimp only
    rw [← List.drop_drop]
    exact hlies.behind
termination_by 2 * weight rest + 2

end

/-- **Documents.** The keys and values of a document stand in the text in order, whatever its errors
are. -/
theorem Document.ofText_lies {d : Document} (h : Document.ofText s = .ok d) :
    ∀ root ∈ d.root, root.LiesFrom 0 := by
  obtain ⟨k, hk⟩ : ∃ k, (linesOf s).dropWhile Line.isBlank = (linesOf s).drop k :=
    ⟨_, List.suffix_iff_eq_drop.1 (List.dropWhile_suffix _)⟩
  have hlines := (linesFrom_linesOf s).drop k
  have hhead := List.head?_dropWhile_not Line.isBlank (linesOf s)
  unfold Document.ofText at h
  rw [hk] at h hhead
  generalize (linesOf s).drop k = lines at hlines h hhead
  rcases lines with _ | ⟨l, rest⟩
  · obtain rfl := Except.ok.inj h
    exact nofun
  obtain ⟨-, hl, hrest⟩ := hlines
  obtain ⟨tree, htree, h⟩ := exists_of_bind_eq_ok h
  obtain rfl := Except.ok.inj h
  intro root hroot
  obtain rfl := Option.some.inj hroot
  exact (block_lies l rest hl hrest hhead htree).value.mono (Nat.zero_le _)

end Polyglot.Data
