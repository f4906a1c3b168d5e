import Polyglot.Proofs.Data.Flow
import Polyglot.Proofs.Data.Lines
import Polyglot.Proofs.Outcome

/-!
# Reading blocks

Every scalar of a block is read, on any lines that lie in the text, and its span fits. Only a flow
collection can tear a character. So every span of a document fits (`ofText_reads`), and every
ASCII text has a document.
-/

namespace Polyglot.Data

open Text

variable {s : String} {i j start stop : ℕ} {cs : List Char} {l : Line} {rest : List Line}

/-! ## Scalars -/

theorem octetsAt_eq (s : String) (r : Span) :
    octetsAt s r = ((octets s).drop r.start).take r.length := by
  rw [octetsAt, octets, ← List.map_drop, ← List.map_take]

theorem stretch_octetsAt (hi : isBoundary s i = true) (hj : isBoundary s j = true) :
    Stretch s i (octetsAt s ⟨i, j⟩) := by
  rw [octetsAt_eq]
  show Stretch s i (((octets s).drop i).take (j - i))
  rcases Nat.le_total i j with hij | hji
  · exact .of_isBoundary hij hi hj
  · rw [Nat.sub_eq_zero_of_le hji, List.take_zero]
    exact ⟨List.nil_prefix, hi, hi⟩

@[simp] theorem octetsAt_shadow (s : String) (r : Span) :
    octetsAt (shadow s) r = (octetsAt s r).map shade := by
  rw [octetsAt_eq, octets_shadow, ← List.map_drop, ← List.map_take, octetsAt_eq]

/-- Two scalars taken alike from a text and from its shadow; the span of the first one fits. -/
def FitsAlike (s : String) (t t' : Taken Scalar) : Prop :=
  t.Fits s (fun x => [x.span]) ∧ Alike t t'

theorem FitsAlike.of_span {r : Span} {t t' : Taken Scalar} (h : r.Fits s) (ht : t.value.span = r)
    (herrors : t.errors = []) (halike : Alike t t') : FitsAlike s t t' := by
  refine ⟨⟨fun x hx => ?_, herrors ▸ forall_errors_nil⟩, halike⟩
  rw [List.mem_singleton.1 hx, ht]
  exact h

theorem foldPlain_both (parentIndent empty : ℕ) (h : LinesFrom s i rest) :
    Both (fun r r' => r'.map Prod.snd = r.map Prod.snd ∧
        ∀ x, r = some x → i ≤ x.2.1 ∧ isBoundary s x.2.1 = true)
      (foldPlain s parentIndent empty rest)
      (foldPlain (shadow s) parentIndent empty (rest.map Line.shade)) := by
  induction rest generalizing i empty with
  | nil => exact ⟨none, none, rfl, rfl, rfl, fun x hx => nomatch hx⟩
  | cons l ls ih =>
    have hle : i ≤ l.contentStart := h.1.trans (Nat.le_add_right ..)
    have hseam := h.2.1.content.isBoundary isSeam_plainLength
    rw [List.map_cons, foldPlain, foldPlain, l.isEmpty_shade, continuesPlain_shade,
      l.contentStart_shade, l.content_shade, plainLength_shade]
    by_cases hempty : l.isEmpty = true
    · rw [if_pos hempty, if_pos hempty]
      exact ih _ h.tail
    · rw [if_neg hempty, if_neg hempty]
      by_cases hcontinues : continuesPlain parentIndent l = true
      · rw [if_pos hcontinues, if_pos hcontinues]
        refine (tokenText_both (Span.fits_withLength h.2.1.content.start hseam)).bind
          fun text text' _ => ?_
        refine (ih 0 h.tail).bind fun more more' ⟨halike, hmore⟩ => both_pure ?_
        rcases more with _ | ⟨tail, stop, used⟩
        · obtain rfl := Option.map_eq_none_iff.1 halike
          refine ⟨rfl, fun x hx => ?_⟩
          obtain rfl := Option.some.inj hx
          exact ⟨hle.trans (Nat.le_add_right ..), hseam⟩
        · obtain ⟨⟨tail', stop', used'⟩, rfl, hpair⟩ := Option.map_eq_some_iff.1 halike
          obtain ⟨rfl, rfl⟩ := Prod.mk.inj hpair
          refine ⟨rfl, fun x hx => ?_⟩
          obtain rfl := Option.some.inj hx
          exact hmore (tail, stop', used') rfl
      · rw [if_neg hcontinues, if_neg hcontinues]
        exact ⟨none, none, rfl, rfl, rfl, fun x hx => nomatch hx⟩

theorem blockPlain_both (parentIndent : ℕ) (h : Stretch s start cs) (hi : start ≤ i)
    (hrest : LinesFrom s i rest) :
    Both (FitsAlike s) (blockPlain s start cs parentIndent rest)
      (blockPlain (shadow s) start (cs.map shade) parentIndent (rest.map Line.shade)) := by
  have hfirst : Span.Fits s (.withLength start (plainLength cs)) :=
    Span.fits_withLength h.start (h.isBoundary isSeam_plainLength)
  unfold blockPlain
  rw [plainLength_shade]
  refine (foldPlain_both parentIndent 0 hrest).bind fun more more' ⟨halike, hmore⟩ => ?_
  rcases more with _ | ⟨tail, stop, used⟩
  · obtain rfl := Option.map_eq_none_iff.1 halike
    exact (plainScalar_both hfirst).bind fun x y ⟨hx, hy⟩ =>
      both_pure (.of_span hfirst hx rfl ⟨rfl, hy.trans hx.symm, rfl⟩)
  · obtain ⟨⟨tail', stop', used'⟩, rfl, hpair⟩ := Option.map_eq_some_iff.1 halike
    obtain ⟨rfl, rfl⟩ := Prod.mk.inj hpair
    obtain ⟨hle, hstop⟩ := hmore _ rfl
    have hspan : Span.Fits s ⟨start, stop'⟩ := ⟨hi.trans hle, h.start, hstop⟩
    refine (tokenText_both hfirst).bind fun head head' _ => ?_
    exact (tokenText_both hspan).bind fun source source' _ =>
      both_pure (.of_span hspan rfl rfl ⟨rfl, rfl, rfl⟩)

theorem blockText_both (parentIndent empty : ℕ) (indent : Option ℕ) (h : LinesFrom s i rest)
    (hstop : stop ≤ i) (hb : isBoundary s stop = true) :
    Both (fun b b' => (b'.stop = b.stop ∧ b'.used = b.used) ∧
        stop ≤ b.stop ∧ isBoundary s b.stop = true)
      (blockText s parentIndent indent empty stop rest)
      (blockText (shadow s) parentIndent indent empty stop (rest.map Line.shade)) := by
  induction rest generalizing i empty indent stop with
  | nil => exact ⟨_, _, rfl, rfl, ⟨rfl, rfl⟩, le_rfl, hb⟩
  | cons l ls ih =>
    rw [List.map_cons, blockText, blockText]
    simp only [l.isEmpty_shade, l.indent_shade, l.start_shade, l.breakStart_shade]
    by_cases hempty : l.isEmpty = true
    · rw [if_pos hempty, if_pos hempty]
      refine (ih _ indent h.tail hstop hb).bind ?_
      rintro b b' ⟨halike, hb⟩
      exact both_pure ⟨⟨halike.1, congrArg (· + 1) halike.2⟩, hb⟩
    · rw [if_neg hempty, if_neg hempty]
      by_cases hout : (decide (l.indent ≤ parentIndent) ||
          decide (l.indent < indent.getD l.indent)) = true
      · rw [if_pos hout, if_pos hout]
        exact ⟨_, _, rfl, rfl, ⟨rfl, rfl⟩, le_rfl, hb⟩
      · rw [if_neg hout, if_neg hout]
        have hcolumn : indent.getD l.indent ≤ l.indent := by
          simp only [Bool.or_eq_true, decide_eq_true_eq, not_or] at hout
          omega
        have hle : l.start + indent.getD l.indent ≤ l.breakStart := by
          have := h.2.1.contentEnd_le
          simp only [Line.contentEnd, Line.contentStart] at this
          omega
        have hbreak := h.2.1.breakStart
        have hpiece : Span.Fits s ⟨l.start + indent.getD l.indent, l.breakStart⟩ :=
          ⟨hle, h.2.1.indent _ hcolumn, hbreak⟩
        refine (tokenText_both hpiece).bind fun piece piece' _ => ?_
        refine (ih 0 _ h.2.2 le_rfl hbreak).bind ?_
        rintro b b' ⟨halike, hb⟩
        have hend : stop ≤ b.stop := (hstop.trans (h.1.trans h.2.1.start_le)).trans hb.1
        exact both_pure ⟨⟨halike.1, congrArg (· + 1) halike.2⟩, hend, hb.2⟩

theorem blockScalar_both (parentIndent : ℕ) (h : Stretch s start cs)
    (hi : start + cs.length ≤ i) (hrest : LinesFrom s i rest) :
    Both (FitsAlike s) (blockScalar s start cs parentIndent rest)
      (blockScalar (shadow s) start (cs.map shade) parentIndent (rest.map Line.shade)) := by
  have hseam : isBoundary s (start + plainLength cs) = true := h.isBoundary isSeam_plainLength
  have hle : start + plainLength cs ≤ i :=
    (Nat.add_le_add_left isSeam_plainLength.le_length start).trans hi
  unfold blockScalar
  rw [plainLength_shade]
  refine (tokenText_both (Span.fits_withLength h.start hseam)).bind fun header header' _ => ?_
  refine (blockText_both parentIndent 0 none hrest hle hseam).bind
    fun block block' ⟨halike, hblock⟩ => ?_
  have hspan : Span.Fits s ⟨start, block.stop⟩ :=
    ⟨(Nat.le_add_right ..).trans hblock.1, h.start, hblock.2⟩
  dsimp only
  rw [halike.1]
  exact (tokenText_both hspan).bind fun source source' _ =>
    both_pure (.of_span hspan rfl rfl ⟨halike.2, rfl, rfl⟩)

theorem blockKey_both (h : Stretch s start cs) :
    Both (FitsAlike s) (blockKey s start cs) (blockKey (shadow s) start (cs.map shade)) := by
  have hany : ((cs.map shade).head?.any fun q => q == '"' || q == '\'') =
      cs.head?.any fun q => q == '"' || q == '\'' := by
    rw [List.head?_map]
    exact any_shade (fun q => by rw [shade_beq (by decide), shade_beq (by decide)]) _
  rw [blockKey, blockKey, hany, List.length_map]
  split_ifs with hquote
  · obtain ⟨q, tail, rfl, hmark⟩ := exists_quote_of_head hquote
    exact (quotedScalar_both h hmark).imp fun t t' ⟨ht, halike⟩ => ⟨ht.1.toFits, halike⟩
  · have hfits : Span.Fits s (.withLength start cs.length) := Span.fits_withLength h.start h.stop
    exact (plainScalar_both hfits).bind fun x y ⟨hx, hy⟩ =>
      both_pure (.of_span hfits hx rfl ⟨rfl, hy.trans hx.symm, rfl⟩)

/-! ## Flow collections -/

theorem isBoundary_flowRegionEnd (parentIndent : ℕ) (h : LinesFrom s i rest)
    (hb : isBoundary s stop = true) :
    isBoundary s (flowRegionEnd parentIndent stop rest) = true := by
  induction rest generalizing i stop with
  | nil => exact hb
  | cons l ls ih =>
    unfold flowRegionEnd
    split_ifs
    · exact ih h.2.2 h.2.1.breakStart
    · exact h.2.1.breakStart
    · exact hb

/-- Where a flow collection ends that begins with the content `cs` at `start`. -/
def flowStop (s : String) (start : ℕ) (cs : List Char) (parentIndent : ℕ) (rest : List Line) : ℕ :=
  let region := octetsAt s ⟨start, flowRegionEnd parentIndent (start + cs.length) rest⟩
  ((extent? 0 none false none region).map (start + ·)).getD (start + cs.length)

theorem isBoundary_flowStop (parentIndent : ℕ) (h : Stretch s start cs)
    (hrest : LinesFrom s i rest) :
    isBoundary s (flowStop s start cs parentIndent rest) = true := by
  unfold flowStop
  have hregion := stretch_octetsAt h.start (isBoundary_flowRegionEnd parentIndent hrest h.stop)
  dsimp only
  generalize octetsAt s _ = region at hregion ⊢
  rcases hn : extent? 0 none false none region with _ | n
  · exact h.stop
  · exact hregion.isBoundary (closedBy_extent hn).isSeam

/-- The end of the last line that a flow collection takes. -/
def flowLineEnd (start : ℕ) (cs : List Char) (stop : ℕ) (rest : List Line) : ℕ :=
  ((rest.takeWhile fun l => l.start < stop).getLast?.map Line.contentEnd).getD (start + cs.length)

theorem isBoundary_flowLineEnd (h : Stretch s start cs) (hrest : LinesFrom s i rest) :
    isBoundary s (flowLineEnd start cs stop rest) = true := by
  unfold flowLineEnd
  generalize hl : (List.takeWhile _ rest).getLast? = last
  rcases last with _ | l
  · exact h.stop
  · have hmem := (List.takeWhile_prefix _).subset (List.mem_of_getLast? hl)
    exact (hrest.lies hmem).content.stop

theorem blockFlow_eq (s : String) (start : ℕ) (cs : List Char) (parentIndent : ℕ)
    (rest : List Line) : blockFlow s start cs parentIndent rest = do
      let stop := flowStop s start cs parentIndent rest
      let tree ← flowTree s ⟨start, none, octetsAt s ⟨start, stop⟩⟩
      let after := start + tree.used
      return ⟨tree.value, (rest.takeWhile fun l => l.start < stop).length,
        tree.errors ++
          trailingErrors after (octetsAt s ⟨after, flowLineEnd start cs stop rest⟩)⟩ := rfl

theorem blockFlow_reads (parentIndent : ℕ) (h : Stretch s start cs) (hrest : LinesFrom s i rest) :
    Reads s (Taken.Fits s Tree.spans) (blockFlow s start cs parentIndent rest) := by
  rw [blockFlow_eq]
  have htree := flowTree_reads ⟨start, none, _⟩
    (stretch_octetsAt h.start (isBoundary_flowStop parentIndent h hrest))
  refine htree.bind fun tree ⟨htree, _⟩ => ?_
  refine reads_ok ⟨htree.value, List.forall_mem_append.2 ⟨htree.errors, ?_⟩⟩
  exact trailingErrors_fit (stretch_octetsAt htree.boundary (isBoundary_flowLineEnd h hrest))

theorem inlineValue_eq (s : String) (start : ℕ) (cs : List Char) (parentIndent : ℕ)
    (rest : List Line) : inlineValue s start cs parentIndent rest =
      if cs.head? = some '"' ∨ cs.head? = some '\'' then do
        let scalar ← quotedScalar s start cs
        return ⟨.scalar scalar.value, 0,
          scalar.errors ++ trailingErrors (start + scalar.used) (cs.drop scalar.used)⟩
      else if cs.head? = some '[' ∨ cs.head? = some '\x7b' then
        blockFlow s start cs parentIndent rest
      else if cs.head? = some '|' ∨ cs.head? = some '>' then do
        let scalar ← blockScalar s start cs parentIndent rest
        return { scalar with value := .scalar scalar.value }
      else do
        let scalar ← blockPlain s start cs parentIndent rest
        return { scalar with value := .scalar scalar.value } := by
  unfold inlineValue
  split
  · rfl
  · rfl
  · rfl
  · rfl
  · rfl
  · rfl
  · next h1 h2 h3 h4 h5 h6 =>
    have hne {d : Char} (h : ∀ t, cs = d :: t → False) : ¬ cs.head? = some d := fun hd => by
      obtain ⟨t, ht⟩ := List.head?_eq_some_iff.1 hd
      exact h t ht
    rw [if_neg (not_or.2 ⟨hne h1, hne h2⟩), if_neg (not_or.2 ⟨hne h3, hne h4⟩),
      if_neg (not_or.2 ⟨hne h5, hne h6⟩)]

theorem inlineValue_reads (parentIndent : ℕ) (h : Stretch s start cs) (hi : start + cs.length ≤ i)
    (hrest : LinesFrom s i rest) :
    Reads s (Taken.Fits s Tree.spans) (inlineValue s start cs parentIndent rest) := by
  have hquoted {q : Char} {tail : List Char} (h : Stretch s start (q :: tail))
      (hq : IsMark q) : Reads s (Taken.Fits s Tree.spans) (do
        let scalar ← quotedScalar s start (q :: tail)
        return ⟨.scalar scalar.value, 0, scalar.errors ++
          trailingErrors (start + scalar.used) ((q :: tail).drop scalar.used)⟩) := by
    refine (quotedScalar_both h hq).reads.bind fun t ⟨_, ⟨ht, _⟩, _⟩ => reads_ok ⟨ht.value, ?_⟩
    exact List.forall_mem_append.2
      ⟨ht.errors, trailingErrors_fit (h.drop ht.boundary ht.used_le)⟩
  unfold inlineValue
  split
  · exact hquoted h (by decide)
  · exact hquoted h (by decide)
  · exact blockFlow_reads parentIndent h hrest
  · exact blockFlow_reads parentIndent h hrest
  · exact (blockScalar_both parentIndent h hi hrest).reads.bind
      fun t ⟨_, ht, _⟩ => reads_ok ⟨ht.value, ht.errors⟩
  · exact (blockScalar_both parentIndent h hi hrest).reads.bind
      fun t ⟨_, ht, _⟩ => reads_ok ⟨ht.value, ht.errors⟩
  · exact (blockPlain_both parentIndent h (by omega) hrest).reads.bind
      fun t ⟨_, ht, _⟩ => reads_ok ⟨ht.value, ht.errors⟩

/-! ## Collections -/

theorem isBoundary_max (hi : isBoundary s i = true) (hj : isBoundary s j = true) :
    isBoundary s (max i j) = true := by
  rcases max_choice i j with h | h <;> rw [h] <;> assumption

/-- The farthest of several places. -/
theorem isBoundary_foldl_max {α : Type} {f : α → ℕ} {xs : List α}
    (hxs : ∀ x ∈ xs, isBoundary s (f x) = true) (hi : isBoundary s i = true) :
    i ≤ xs.foldl (fun stop x => max stop (f x)) i ∧
      isBoundary s (xs.foldl (fun stop x => max stop (f x)) i) = true := by
  induction xs generalizing i with
  | nil => exact ⟨le_rfl, hi⟩
  | cons x xs ih =>
    obtain ⟨hle, hb⟩ := ih (fun y hy => hxs y (List.mem_cons_of_mem x hy))
      (isBoundary_max hi (hxs x List.mem_cons_self))
    exact ⟨(le_max_left ..).trans hle, hb⟩

/-- The spans of items, each with the span of its dash. -/
def spansOfDashed (items : List (ℕ × Tree)) : List Span :=
  items.flatMap fun x => .withLength x.1 1 :: x.2.spans

theorem fits_of_spansOfDashed {items : List (ℕ × Tree)} {x : ℕ × Tree}
    (h : ∀ r ∈ spansOfDashed items, r.Fits s) (hx : x ∈ items) :
    isBoundary s (x.1 + 1) = true ∧ ∀ r ∈ x.2.spans, r.Fits s := by
  have hx := List.forall_mem_cons.1 fun r hr => h r (List.mem_flatMap.2 ⟨x, hx, hr⟩)
  exact ⟨hx.1.2.2, hx.2⟩

theorem getElem?_of_nestedLine {parentIndent : ℕ} {underKey : Bool} {before : ℕ}
    (h : nestedLine? parentIndent underKey rest = some (before, l)) : rest[before]? = some l := by
  unfold nestedLine? at h
  dsimp only at h
  split at h
  · cases h
  · next hl =>
    split_ifs at h
    obtain ⟨rfl, rfl⟩ := Prod.mk.inj (Option.some.inj h)
    exact hl

theorem LinesFrom.nested {before : ℕ} (h : LinesFrom s i rest) (hl : rest[before]? = some l) :
    l.Lies s ∧ LinesFrom s l.breakStart (rest.drop (before + 1)) := by
  obtain ⟨hlt, rfl⟩ := List.getElem?_eq_some_iff.1 hl
  have hdrop := h.drop before
  rw [List.drop_eq_getElem_cons hlt] at hdrop
  exact hdrop.2

theorem Line.eq_cons_of_isItem (h : l.isItem = true) : ∃ tail, l.content = '-' :: tail := by
  unfold isItem at h
  split at h
  · next tail heq => exact ⟨tail, heq⟩
  · cases h

theorem blockNested_of_eq_none {parentIndent anchor : ℕ} {underKey : Bool}
    (h : nestedLine? parentIndent underKey rest = none) :
    blockNested s parentIndent underKey anchor rest = .ok ⟨.scalar (.missing anchor), 0, []⟩ := by
  rw [blockNested]
  split
  · rfl
  · next heq => exact absurd (h.symm.trans heq) (by simp)

theorem blockNested_of_eq_some {parentIndent anchor before : ℕ} {underKey : Bool}
    (h : nestedLine? parentIndent underKey rest = some (before, l)) :
    blockNested s parentIndent underKey anchor rest = do
      let tree ← block s l (rest.drop (before + 1))
      return { tree with used := before + 1 + tree.used } := by
  rw [blockNested]
  split
  · next heq => exact absurd (h.symm.trans heq) (by simp)
  · next before' l' heq =>
    obtain ⟨rfl, rfl⟩ := Prod.mk.inj (Option.some.inj (h.symm.trans heq))
    rfl

theorem used_blockItems_pos {t : Taken (List (ℕ × Tree))} (hblank : l.isBlank = false)
    (hitem : l.isItem = true) (h : blockItems s l.indent (l :: rest) = .ok t) : 0 < t.used := by
  rw [blockItems, if_neg (by simp [hblank]), if_neg (lt_irrefl _), if_neg (lt_irrefl _),
    if_pos hitem] at h
  obtain ⟨item, -, h⟩ := exists_of_bind_eq_ok h
  obtain ⟨more, -, h⟩ := exists_of_bind_eq_ok h
  obtain rfl := Except.ok.inj h
  dsimp only
  omega

theorem used_blockPairs_pos {t : Taken (List (Scalar × Tree))} {seen : List String}
    (hblank : l.isBlank = false) (hitem : l.isItem = false) (hkey : (findKey? l.content).isSome = true)
    (h : blockPairs s l.indent seen (l :: rest) = .ok t) : 0 < t.used := by
  obtain ⟨extent, hextent⟩ := Option.isSome_iff_exists.1 hkey
  rw [blockPairs, if_neg (by simp [hblank]), if_neg (lt_irrefl _), if_neg (by simp [hitem]),
    hextent] at h
  obtain ⟨key, -, h⟩ := exists_of_bind_eq_ok h
  obtain ⟨value, -, h⟩ := exists_of_bind_eq_ok h
  obtain ⟨more, -, h⟩ := exists_of_bind_eq_ok h
  obtain rfl := Except.ok.inj h
  dsimp only
  omega

/-- Where the content of an item begins, behind the dash and blanks. -/
theorem isSeam_of_le_itemColumn {k : ℕ} (h : l.isItem = true)
    (hk : k ≤ 1 + blanks (l.content.drop 1)) : IsSeam l.content k := by
  obtain ⟨tail, htail⟩ := Line.eq_cons_of_isItem h
  rw [htail] at hk ⊢
  rcases k with _ | k
  · exact .start
  · have hk : k ≤ blanks tail := by
      rw [List.drop_one, List.tail_cons] at hk
      omega
    exact (isSeam_of_le_blanks hk).cons (Or.inr (Or.inr (by decide)))

/-- Where the value of a pair begins, behind the colon and blanks. -/
theorem Line.Lies.stretch_value {extent : KeyExtent} (h : l.Lies s)
    (hkey : findKey? l.content = some extent) :
    let valueAt := extent.colonEnd + blanks (l.content.drop extent.colonEnd)
    Stretch s (l.contentStart + valueAt) (l.content.drop valueAt) ∧
      l.contentStart + valueAt + (l.content.drop valueAt).length = l.contentEnd := by
  have hcolon := (isSeam_findKey hkey).2
  have hafter := h.content.drop (h.content.isBoundary hcolon) hcolon.le_length
  have hle : blanks (l.content.drop extent.colonEnd) ≤ (l.content.drop extent.colonEnd).length :=
    isSeam_blanks.le_length
  have hvalue := hafter.drop (hafter.isBoundary isSeam_blanks) hle
  rw [List.drop_drop, Nat.add_assoc] at hvalue
  refine ⟨hvalue, ?_⟩
  have := hcolon.le_length
  rw [List.length_drop] at hle
  rw [List.length_drop, contentEnd]
  omega

theorem lineError_fits {fault : Fault} (h : l.Lies s) {errors : List Error}
    (herrors : ∀ e ∈ errors, e.span.Fits s) :
    ∀ e ∈ lineError fault l :: errors, e.span.Fits s :=
  List.forall_mem_cons.2 ⟨h.fits_content, herrors⟩

mutual

/-- **Blocks.** -/
theorem block_reads (l : Line) (rest : List Line) (hl : l.Lies s)
    (hrest : LinesFrom s l.breakStart rest) :
    Reads s (Taken.Fits s Tree.spans) (block s l rest) := by
  have hlines : LinesFrom s l.start (l :: rest) := ⟨le_rfl, hl, hrest⟩
  rw [block]
  split_ifs with hitem hkey
  · refine (blockItems_reads l.indent (l :: rest) hlines).bind fun items hitems => ?_
    have hspans {x : ℕ × Tree} := fits_of_spansOfDashed (x := x) hitems.value
    have hstop := isBoundary_foldl_max (fun x hx => isBoundary_max (hspans hx).1
      ((hspans hx).2 _ x.2.span_mem_spans).2.2) hl.content.start
    refine reads_ok ⟨?_, hitems.errors⟩
    rw [Tree.spans]
    refine List.forall_mem_cons.2 ⟨⟨hstop.1, hl.content.start, hstop.2⟩, fun r hr => ?_⟩
    obtain ⟨tree, htree, hr⟩ := mem_spansOfItems.1 hr
    obtain ⟨x, hx, rfl⟩ := List.mem_map.1 htree
    exact (hspans hx).2 r hr
  · refine (blockPairs_reads l.indent [] (l :: rest) hlines).bind fun pairs hpairs => ?_
    have hkeys {x : Scalar × Tree} (hx : x ∈ pairs.value) : x.1.span.Fits s :=
      hpairs.value _ (mem_spansOfPairs.2 ⟨x, hx, Or.inl rfl⟩)
    have hvalues {x : Scalar × Tree} (hx : x ∈ pairs.value) : x.2.span.Fits s :=
      hpairs.value _ (mem_spansOfPairs.2 ⟨x, hx, Or.inr x.2.span_mem_spans⟩)
    have hstop := isBoundary_foldl_max (fun x hx => isBoundary_max (hkeys hx).2.2
      (hvalues hx).2.2) hl.content.start
    refine reads_ok ⟨?_, hpairs.errors⟩
    rw [Tree.spans]
    exact List.forall_mem_cons.2 ⟨⟨hstop.1, hl.content.start, hstop.2⟩, hpairs.value⟩
  · exact inlineValue_reads _ hl.content hl.contentEnd_le hrest
termination_by 2 * weight (l :: rest) + 1

theorem blockPairs_reads {i : ℕ} (indent : ℕ) (seen : List String) :
    (lines : List Line) → LinesFrom s i lines →
      Reads s (Taken.Fits s spansOfPairs) (blockPairs s indent seen lines)
  | [], _ => by
    rw [blockPairs]
    exact ⟨fun r hr => absurd hr List.not_mem_nil, forall_errors_nil⟩
  | l :: rest, h => by
    obtain ⟨-, hl, hrest⟩ := h
    have hweight := weight_cons l rest
    rw [blockPairs]
    split_ifs with hblank hout hmisplaced
    · exact (blockPairs_reads indent seen rest hrest).bind
        fun more hmore => reads_ok ⟨hmore.value, hmore.errors⟩
    · exact ⟨fun r hr => absurd hr List.not_mem_nil, forall_errors_nil⟩
    · exact (blockPairs_reads indent seen rest hrest).bind
        fun more hmore => reads_ok ⟨hmore.value, lineError_fits hl hmore.errors⟩
    · split
      · exact (blockPairs_reads indent seen rest hrest).bind
          fun more hmore => reads_ok ⟨hmore.value, lineError_fits hl hmore.errors⟩
      · next extent hkey =>
        have hpos := l.length_content_pos hblank
        obtain ⟨hvalue, hend⟩ := hl.stretch_value hkey
        have hseams := isSeam_findKey hkey
        have hvalue : Reads s (Taken.Fits s Tree.spans)
            (if isUsedUp (l.content.drop
                (extent.colonEnd + blanks (l.content.drop extent.colonEnd))) = true then
              blockNested s indent true (l.contentStart + extent.colonEnd) rest
            else inlineValue s
              (l.contentStart + (extent.colonEnd + blanks (l.content.drop extent.colonEnd)))
              (l.content.drop (extent.colonEnd + blanks (l.content.drop extent.colonEnd)))
              indent rest) := by
          split_ifs
          · exact blockNested_reads indent true _ rest hrest (hl.content.isBoundary hseams.2)
          · exact inlineValue_reads indent hvalue (hend ▸ hl.contentEnd_le) hrest
        have hkey := blockKey_both
          (hl.content.take (hl.content.isBoundary hseams.1) hseams.1.le_length)
        refine hkey.reads.bind fun key ⟨_, hkey, _⟩ => ?_
        refine hvalue.bind ?_
        intro value hvalue
        have hdrop := weight_drop_le rest value.used
        refine (blockPairs_reads indent (key.value.key :: seen) (rest.drop value.used)
          (hrest.drop _)).bind fun more hmore => reads_ok ⟨?_, ?_⟩
        · rw [spansOfPairs]
          exact List.forall_mem_append.2 ⟨List.forall_mem_cons.2
            ⟨hkey.value _ List.mem_cons_self, hvalue.value⟩, hmore.value⟩
        · simp only [List.forall_mem_append]
          exact ⟨⟨⟨hkey.errors, hvalue.errors⟩,
            duplicateErrors_fit (hkey.value _ List.mem_cons_self)⟩, hmore.errors⟩
termination_by lines => 2 * weight lines
decreasing_by
  all_goals omega

theorem blockItems_reads {i : ℕ} (indent : ℕ) :
    (lines : List Line) → LinesFrom s i lines →
      Reads s (Taken.Fits s spansOfDashed) (blockItems s indent lines)
  | [], _ => by
    rw [blockItems]
    exact ⟨fun r hr => absurd hr List.not_mem_nil, forall_errors_nil⟩
  | l :: rest, h => by
    obtain ⟨-, hl, hrest⟩ := h
    have hweight := weight_cons l rest
    rw [blockItems]
    split_ifs with hblank hout hdeeper hitem
    · exact (blockItems_reads indent rest hrest).bind
        fun more hmore => reads_ok ⟨hmore.value, hmore.errors⟩
    · exact ⟨fun r hr => absurd hr List.not_mem_nil, forall_errors_nil⟩
    · exact (blockItems_reads indent rest hrest).bind
        fun more hmore => reads_ok ⟨hmore.value, lineError_fits hl hmore.errors⟩
    · have hpos := l.length_content_pos hblank
      have hseam {k : ℕ} := isSeam_of_le_itemColumn (k := k) hitem
      have hdash : isBoundary s (l.contentStart + 1) = true :=
        hl.content.isBoundary (hseam (Nat.le_add_right 1 _))
      have hadvance : weight (l.advance (1 + blanks (l.content.drop 1)) :: rest) <
          weight (l :: rest) := by
        simp only [weight_cons, Line.advance, List.length_drop]
        omega
      have hitem : Reads s (Taken.Fits s Tree.spans)
          (if isUsedUp (l.content.drop (1 + blanks (l.content.drop 1))) = true then
            blockNested s indent false (l.contentStart + 1) rest
          else block s (l.advance (1 + blanks (l.content.drop 1))) rest) := by
        split_ifs
        · exact blockNested_reads indent false _ rest hrest hdash
        · exact block_reads _ rest (hl.advance fun j hj => hseam hj) hrest
      refine hitem.bind ?_
      intro item hitem
      have hdrop := weight_drop_le rest item.used
      refine (blockItems_reads indent (rest.drop item.used) (hrest.drop _)).bind
        fun more hmore => reads_ok ⟨?_, List.forall_mem_append.2 ⟨hitem.errors, hmore.errors⟩⟩
      show ∀ r ∈ (Span.withLength l.contentStart 1 :: item.value.spans) ++ _, r.Fits s
      exact List.forall_mem_append.2 ⟨List.forall_mem_cons.2
        ⟨Span.fits_withLength hl.content.start hdash, hitem.value⟩, hmore.value⟩
    · exact ⟨fun r hr => absurd hr List.not_mem_nil, forall_errors_nil⟩
termination_by lines => 2 * weight lines
decreasing_by
  all_goals omega

theorem blockNested_reads {i : ℕ} (parentIndent : ℕ) (underKey : Bool) (anchor : ℕ)
    (rest : List Line) (h : LinesFrom s i rest) (hb : isBoundary s anchor = true) :
    Reads s (Taken.Fits s Tree.spans) (blockNested s parentIndent underKey anchor rest) := by
  rw [blockNested]
  split
  · refine reads_ok ⟨fun r hr => ?_, forall_errors_nil⟩
    rw [List.mem_singleton.1 hr]
    exact Span.fits_emptyAt hb
  · next before l hnested =>
    have hweight := weight_nestedLine hnested
    obtain ⟨hl, hafter⟩ := h.nested (getElem?_of_nestedLine hnested)
    exact (block_reads l (rest.drop (before + 1)) hl hafter).bind
      fun tree htree => reads_ok ⟨htree.value, htree.errors⟩
termination_by 2 * weight rest + 2

end

/-! ## Documents -/

theorem strayErrors_fit {lines : List Line} (h : LinesFrom s i lines) :
    ∀ e ∈ strayErrors lines, e.span.Fits s := by
  intro e he
  obtain ⟨l, hl, rfl⟩ := List.mem_map.1 he
  exact (h.lies (List.mem_filter.1 hl).1).fits_content

/-- **Documents.** Every span of a document fits, and an ASCII text has one. -/
theorem ofText_reads (s : String) :
    Reads s (fun d => ∀ r ∈ d.spans, r.Fits s) (Document.ofText s) := by
  obtain ⟨k, hk⟩ : ∃ k, (linesOf s).dropWhile Line.isBlank = (linesOf s).drop k :=
    ⟨_, List.suffix_iff_eq_drop.1 (List.dropWhile_suffix _)⟩
  have hlines := (linesFrom_linesOf s).drop k
  unfold Document.ofText
  rw [hk]
  generalize (linesOf s).drop k = lines at hlines ⊢
  have herrors {errors : List Error} (h : ∀ e ∈ errors, e.span.Fits s) :
      ∀ r ∈ errors.map Error.span, r.Fits s := fun r hr => by
    obtain ⟨e, he, rfl⟩ := List.mem_map.1 hr
    exact h e he
  rcases lines with _ | ⟨l, rest⟩
  · exact reads_ok (herrors (tabErrors_fit s))
  · obtain ⟨-, hl, hrest⟩ := hlines
    refine (block_reads l rest hl hrest).bind fun tree htree => reads_ok ?_
    refine List.forall_mem_append.2 ⟨htree.value, herrors ?_⟩
    simp only [List.forall_mem_append]
    exact ⟨⟨tabErrors_fit s, htree.errors⟩, strayErrors_fit (hrest.drop _)⟩

end Polyglot.Data
