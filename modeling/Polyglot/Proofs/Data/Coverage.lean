import Polyglot.Proofs.Data.Torn

/-!
# Lines and nodes

In a document without errors each line with content begins in the root, or is hidden behind a flow
collection (`Document.ofText_covers`): the extent of the collection goes on over the line, though the
collection itself is complete before it, and a comment stands in between. Each function that takes lines
covers those it takes, or reports an error.
-/

namespace Polyglot.Data

open Text

variable {s : String} {i j n start stop : ℕ} {cs ds : List Char} {c : Char} {l m : Line}
  {rest lines : List Line} {flows flows' : List Span} {previous : Option Char}

/-! ## Flow collections -/

mutual

/-- The flow collections of a tree that are not inside another one. -/
def Tree.flows : Tree → List Span
  | .scalar _ => []
  | .mapping true span _ => [span]
  | .sequence true span _ => [span]
  | .mapping false _ pairs => flowsOfPairs pairs
  | .sequence false _ items => flowsOfItems items

def flowsOfPairs : List (Scalar × Tree) → List Span
  | [] => []
  | (_, value) :: rest => value.flows ++ flowsOfPairs rest

def flowsOfItems : List Tree → List Span
  | [] => []
  | item :: rest => item.flows ++ flowsOfItems rest

end

/-- A line behind the flow collection at `r`, up to which the extent of its first bracket goes. A comment
follows the collection. -/
structure Hides (s : String) (r : Span) (l : Line) : Prop where
  behind : r.stop ≤ l.contentStart
  comment : (((octets s).drop r.stop).dropWhile isBlank).head? = some '#'
  extent : ∃ n, extent? 0 none false none ((octets s).drop r.start) = some n ∧ l.start < r.start + n

/-- The line begins before `stop`, or one of the flow collections hides it. -/
def Covered (s : String) (stop : ℕ) (flows : List Span) (l : Line) : Prop :=
  l.contentStart < stop ∨ ∃ r ∈ flows, Hides s r l

theorem Covered.mono (h : Covered s i flows l) (hle : i ≤ j) (hsub : flows ⊆ flows') :
    Covered s j flows' l :=
  h.imp (fun h => h.trans_le hle) fun ⟨r, hr, hides⟩ => ⟨r, hsub hr, hides⟩

theorem flowsOfPairs_eq (pairs : List (Scalar × Tree)) :
    flowsOfPairs pairs = pairs.flatMap fun x => x.2.flows := by
  induction pairs with
  | nil => rfl
  | cons x pairs ih => rw [flowsOfPairs, ih, List.flatMap_cons]

theorem flowsOfItems_eq (items : List Tree) : flowsOfItems items = items.flatMap Tree.flows := by
  induction items with
  | nil => rfl
  | cons x items ih => rw [flowsOfItems, ih, List.flatMap_cons]

/-! ## Octets -/

theorem drop_blanks (cs : List Char) : cs.drop (blanks cs) = cs.dropWhile isBlank := by
  have happend := List.takeWhile_append_dropWhile (p := isBlank) (l := cs)
  calc cs.drop (blanks cs)
      = (cs.takeWhile isBlank ++ cs.dropWhile isBlank).drop (cs.takeWhile isBlank).length := by
        rw [happend, blanks]
    _ = cs.dropWhile isBlank := List.drop_left

/-- The extent of a collection does not depend on what follows it. -/
theorem extent?_append {depth : ℕ} {open? : Option Char} {comment : Bool}
    (h : extent? depth open? comment previous cs = some n) (ds : List Char) :
    extent? depth open? comment previous (cs ++ ds) = some n := by
  fun_induction extent? depth open? comment previous cs generalizing n with
  | case1 => cases h
  | case3 => cases h
  | case8 =>
    simp only [List.cons_append]
    rw [extent?.eq_def]
    simp_all
  | case2 _ _ _ _ _ ih | case4 _ _ _ _ _ _ _ _ _ ih | case5 _ _ _ _ _ _ _ _ ih
  | case6 _ _ _ _ _ _ _ ih | case7 _ _ _ _ _ _ _ _ ih | case9 _ _ _ _ _ _ _ _ _ _ ih
  | case10 _ _ _ _ _ _ _ _ _ ih =>
    obtain ⟨k, hk, rfl⟩ := Option.map_eq_some_iff.1 h
    have hmore := ih hk
    simp only [List.cons_append]
    rw [extent?.eq_def]
    simp_all

theorem plainLength_pos (hcs : cs ≠ []) (hhead : cs.head?.any isBlank = false) :
    0 < plainLength cs := by
  obtain ⟨c, cs, rfl⟩ := List.exists_cons_of_ne_nil hcs
  have hc : isBlank c = false := hhead
  have htake : beforeComment none (c :: cs) = beforeComment (some c) cs + 1 := by
    simp [beforeComment]
  unfold plainLength trimEnd
  rw [htake, List.take_succ_cons, List.length_reverse, List.length_pos_iff, ne_eq,
    List.dropWhile_eq_nil_iff]
  intro hall
  have hblank := hall c (by simp)
  rw [hc] at hblank
  cases hblank

/-! ## Lines whose indentation is complete -/

/-- The content does not begin with a blank. -/
def Line.IsFlush (l : Line) : Prop := l.content.head?.any Data.isBlank = false

theorem head?_drop_blanks (cs : List Char) : (cs.drop (blanks cs)).head?.any isBlank = false := by
  have hhead := List.head?_dropWhile_not isBlank cs
  rw [drop_blanks]
  rcases h : (cs.dropWhile isBlank).head? with _ | c
  · rfl
  · rw [h] at hhead
    simpa using hhead

theorem isFlush_ofOctets (start : ℕ) (cs : List Char) : (Line.ofOctets start cs).IsFlush := by
  have hflush (cs : List Char) : (trimEnd (cs.drop (blanks cs))).head?.any isBlank = false := by
    have hhead := head?_drop_blanks cs
    obtain ⟨ds, hds⟩ := isPrefix_trimEnd (cs.drop (blanks cs))
    rw [← hds, List.head?_append] at hhead
    rcases htrim : (trimEnd (cs.drop (blanks cs))).head? with _ | c
    · rfl
    · rw [htrim] at hhead
      exact hhead
  exact hflush _

/-! ## Scalars over several lines -/

theorem Line.Lies.contentStart_lt (h : l.Lies s) (hl : l.isEmpty = false) :
    l.contentStart < l.breakStart := by
  have hle := h.contentEnd_le
  have hpos : 0 < l.content.length :=
    List.length_pos_iff.2 fun hnil => by simp [Line.isEmpty, hnil] at hl
  unfold Line.contentEnd at hle
  omega

theorem Line.isEmpty_of_not_isBlank (h : l.isBlank = false) : l.isEmpty = false := by
  unfold Line.isBlank at h
  unfold Line.isEmpty
  rcases hcontent : l.content with _ | ⟨c, cs⟩
  · rw [hcontent] at h
    cases h
  · rfl

/-- A plain scalar covers its later lines; `used` counts the empty ones in front of `lines` too. -/
theorem foldPlain_covers {parentIndent empty used : ℕ} {tail : String}
    (h : foldPlain s parentIndent empty lines = .ok (some (tail, stop, used)))
    (hlines : LinesFrom s i lines) (hflush : ∀ m ∈ lines, m.IsFlush) :
    empty < used ∧ i < stop ∧
      ∀ m ∈ lines.take (used - empty), m.isBlank = false → m.contentStart < stop := by
  induction lines generalizing i empty tail stop used with
  | nil => cases h
  | cons l ls ih =>
    obtain ⟨hle, hl, hls⟩ := hlines
    obtain ⟨hflush, hflushes⟩ := List.forall_mem_cons.1 hflush
    have hstart := hl.start_le
    rw [foldPlain] at h
    by_cases hempty : l.isEmpty = true
    · rw [if_pos hempty] at h
      obtain ⟨hlt, hstop, hcovers⟩ := ih h hls hflushes
      refine ⟨by omega, by omega, fun m hm hblank => ?_⟩
      rw [show used - empty = used - (empty + 1) + 1 by omega, List.take_succ_cons] at hm
      rcases List.mem_cons.1 hm with rfl | hm
      · rw [Line.isEmpty_of_not_isBlank hblank] at hempty
        cases hempty
      · exact hcovers m hm hblank
    rw [if_neg hempty] at h
    by_cases hcontinues : continuesPlain parentIndent l = true
    · rw [if_pos hcontinues] at h
      have hlt := hl.contentStart_lt (Bool.eq_false_iff.2 hempty)
      have hpos := plainLength_pos (fun hnil => hempty (by simp [Line.isEmpty, hnil])) hflush
      have hindent : l.start ≤ l.contentStart := Nat.le_add_right _ _
      obtain ⟨text, -, h⟩ := exists_of_bind_eq_ok h
      obtain ⟨more, hmore, h⟩ := exists_of_bind_eq_ok h
      rcases more with _ | ⟨tail', stop', used'⟩
      · obtain ⟨-, rfl, rfl⟩ : _ ∧ l.contentStart + plainLength l.content = stop ∧
            empty + 1 = used := by simpa [Span.withLength, pure, Except.pure] using h
        refine ⟨by omega, by omega, fun m hm _ => ?_⟩
        rw [Nat.add_sub_cancel_left, List.take_succ_cons, List.take_zero, List.mem_singleton] at hm
        rw [hm]
        omega
      · obtain ⟨-, rfl, rfl⟩ : _ ∧ stop' = stop ∧ empty + 1 + used' = used := by
          simpa [pure, Except.pure] using h
        obtain ⟨-, hstop, hcovers⟩ := ih hmore hls hflushes
        refine ⟨by omega, by omega, fun m hm hblank => ?_⟩
        rw [show empty + 1 + used' - empty = used' + 1 by omega, List.take_succ_cons] at hm
        rcases List.mem_cons.1 hm with rfl | hm
        · omega
        · exact hcovers m hm hblank
    · rw [if_neg hcontinues] at h
      cases h

/-- A block scalar covers the lines of its text. -/
theorem blockText_covers {parentIndent empty : ℕ} {indent : Option ℕ} {b : BlockText}
    (h : blockText s parentIndent indent empty stop lines = .ok b) (hlines : LinesFrom s i lines)
    (hstop : stop ≤ i) :
    stop ≤ b.stop ∧ ∀ m ∈ lines.take b.used, m.isBlank = false → m.contentStart < b.stop := by
  induction lines generalizing i indent empty stop b with
  | nil =>
    obtain rfl := Except.ok.inj h
    exact ⟨le_rfl, fun _ hm => absurd hm (by simp)⟩
  | cons l ls ih =>
    obtain ⟨hle, hl, hls⟩ := hlines
    have hstart := hl.start_le
    rw [blockText] at h
    dsimp only at h
    split_ifs at h with hempty hout
    · obtain ⟨more, hmore, h⟩ := exists_of_bind_eq_ok h
      obtain rfl := Except.ok.inj h
      obtain ⟨hstop, hcovers⟩ := ih hmore hls (by omega)
      refine ⟨hstop, List.forall_mem_cons.2 ⟨fun hblank => ?_, hcovers⟩⟩
      rw [Line.isEmpty_of_not_isBlank hblank] at hempty
      cases hempty
    · obtain rfl := Except.ok.inj h
      exact ⟨le_rfl, fun _ hm => absurd hm (by simp)⟩
    · have hlt := hl.contentStart_lt (Bool.eq_false_iff.2 hempty)
      obtain ⟨piece, -, h⟩ := exists_of_bind_eq_ok h
      obtain ⟨more, hmore, h⟩ := exists_of_bind_eq_ok h
      obtain rfl := Except.ok.inj h
      obtain ⟨hstop, hcovers⟩ := ih hmore hls le_rfl
      exact ⟨by dsimp only; omega, List.forall_mem_cons.2 ⟨fun _ => hlt.trans_le hstop, hcovers⟩⟩

/-! ## Flow collections behind which lines are hidden -/

theorem LinesFrom.le_start (h : LinesFrom s i lines) (hm : m ∈ lines) : i ≤ m.start := by
  induction lines generalizing i with
  | nil => cases hm
  | cons l ls ih =>
    rcases List.mem_cons.1 hm with rfl | hm
    · exact h.1
    · exact ih h.tail hm

theorem LinesFrom.of_isPrefix (h : LinesFrom s i lines) {ls : List Line} (hls : ls <+: lines) :
    LinesFrom s i ls := by
  induction ls generalizing i lines with
  | nil => trivial
  | cons l ls ih =>
    obtain ⟨more, rfl⟩ := hls
    exact ⟨h.1, h.2.1, ih h.2.2 (List.prefix_append _ _)⟩

/-- The last of several lines ends last. -/
theorem LinesFrom.contentEnd_le (h : LinesFrom s i lines) (hm : m ∈ lines)
    (hlast : lines.getLast? = some l) : m.contentEnd ≤ l.contentEnd := by
  induction lines generalizing i with
  | nil => cases hm
  | cons k ls ih =>
    rcases ls with _ | ⟨k', ls⟩
    · obtain rfl := List.mem_singleton.1 hm
      obtain rfl : m = l := by simpa using hlast
      exact le_rfl
    · rw [List.getLast?_cons_cons] at hlast
      rcases List.mem_cons.1 hm with rfl | hm
      · have hle := h.2.1.contentEnd_le
        have hstart := LinesFrom.le_start h.2.2 (List.mem_of_getLast? hlast)
        unfold Line.contentEnd Line.contentStart at hle ⊢
        omega
      · exact ih h.2.2 hm hlast

theorem Line.Lies.getElem?_contentStart (h : l.Lies s) (hl : l.isEmpty = false) (hflush : l.IsFlush) :
    ∃ c, (octets s)[l.contentStart]? = some c ∧ Data.isBlank c = false := by
  unfold IsFlush at hflush
  unfold isEmpty at hl
  rcases hcontent : l.content with _ | ⟨c, cs⟩
  · rw [hcontent] at hl
    cases hl
  · obtain ⟨after, hafter⟩ := h.content.octets
    rw [hcontent] at hflush hafter
    refine ⟨c, ?_, hflush⟩
    rw [← Nat.add_zero l.contentStart, ← List.getElem?_drop, ← hafter]
    rfl

/-- What stands behind a value, up to something that is no blank, is a comment. -/
theorem comment_of_trailingErrors {after lineEnd k : ℕ}
    (h : trailingErrors after (octetsAt s ⟨after, lineEnd⟩) = []) (hk : after ≤ k) (hlt : k < lineEnd)
    (hget : (octets s)[k]? = some c) (hc : isBlank c = false) :
    (((octets s).drop after).dropWhile isBlank).head? = some '#' := by
  have hsplit := List.take_append_drop (lineEnd - after) ((octets s).drop after)
  have hmem : c ∈ octetsAt s ⟨after, lineEnd⟩ := by
    rw [octetsAt_eq]
    refine List.mem_of_getElem? (i := k - after) ?_
    unfold Span.length
    rw [List.getElem?_take_of_lt (by dsimp only; omega), List.getElem?_drop,
      Nat.add_sub_cancel' hk, hget]
  unfold trailingErrors at h
  dsimp only at h
  split_ifs at h with hused
  rw [drop_blanks] at hused
  rw [← hsplit, List.dropWhile_append]
  rw [octetsAt_eq] at hmem hused
  unfold Span.length at hmem hused
  dsimp only at hmem hused
  rcases hwhile : (((octets s).drop after).take (lineEnd - after)).dropWhile isBlank with _ | ⟨d, ds⟩
  · have hblank := List.dropWhile_eq_nil_iff.1 hwhile c hmem
    rw [hc] at hblank
    cases hblank
  · rw [hwhile] at hused
    obtain rfl : d = '#' := by simpa [isUsedUp] using hused
    rfl

theorem flowTree_bracketed {k : Cursor} {t : Taken Tree} (h : flowTree s k = .ok t)
    (hhead : k.rest.head? = some '[' ∨ k.rest.head? = some '\x7b') :
    t.value.span = .withLength k.offset t.used ∧ 0 < t.used ∧ t.value.flows = [t.value.span] := by
  have hgap : k.gap = 0 := by
    unfold Cursor.gap
    rcases hrest : k.rest with _ | ⟨d, ds⟩
    · rfl
    · rw [hrest] at hhead
      rcases hhead with hd | hd <;> cases hd <;> rfl
  have hskip : k.skip = k := by
    show k.advance k.gap = k
    rw [hgap]
    simp [Cursor.advance]
  have hne : k.rest ≠ [] := fun hnil => by simp [hnil] at hhead
  rw [flowTree_eq, hskip, hgap, if_neg hne, Nat.zero_add] at h
  rcases hhead with hhead | hhead
  · rw [if_pos hhead] at h
    obtain ⟨items, -, h⟩ := exists_of_bind_eq_ok h
    obtain rfl := Except.ok.inj h
    exact ⟨rfl, Nat.add_pos_left one_pos _, rfl⟩
  · rw [if_neg (by simp [hhead]), if_pos hhead] at h
    obtain ⟨pairs, -, h⟩ := exists_of_bind_eq_ok h
    obtain rfl := Except.ok.inj h
    exact ⟨rfl, Nat.add_pos_left one_pos _, rfl⟩

/-! ## Values -/

/-- A tree that begins at `start` covers the lines that it takes. -/
structure Taken.Covers (s : String) (start : ℕ) (lines : List Line) (t : Taken Tree) : Prop where
  start_lt : start < t.value.span.stop
  lines : ∀ m ∈ lines.take t.used, m.isBlank = false →
    Covered s t.value.span.stop t.value.flows m

theorem lt_flowStop (s : String) (start parentIndent : ℕ) (hcs : cs ≠ []) (rest : List Line) :
    start < flowStop s start cs parentIndent rest := by
  have hpos := List.length_pos_iff.2 hcs
  unfold flowStop
  dsimp only
  rcases hn : extent? 0 none false none _ with _ | n
  · simp [hpos]
  · obtain ⟨k, rfl, -⟩ := closedBy_extent hn
    simp

/-- Lines behind the first one are taken only if an extent goes up to them. -/
theorem exists_extent_of_lt_flowStop {parentIndent : ℕ}
    (h : start + cs.length < flowStop s start cs parentIndent rest) :
    ∃ n, extent? 0 none false none ((octets s).drop start) = some n ∧
      flowStop s start cs parentIndent rest = start + n := by
  unfold flowStop at h ⊢
  dsimp only at h ⊢
  rw [octetsAt_eq] at h ⊢
  generalize Span.length _ = size at h ⊢
  rcases hn : extent? 0 none false none (((octets s).drop start).take size) with _ | n
  · rw [hn] at h
    exact absurd h (lt_irrefl _)
  · have hmore := extent?_append hn (((octets s).drop start).drop size)
    rw [List.take_append_drop] at hmore
    exact ⟨n, hmore, rfl⟩

theorem le_flowLineEnd (hrest : LinesFrom s i rest)
    (hm : m ∈ rest.takeWhile fun l => l.start < stop) :
    m.contentEnd ≤ flowLineEnd start cs stop rest := by
  have htaken := hrest.of_isPrefix (List.takeWhile_prefix (fun l => decide (l.start < stop)))
  unfold flowLineEnd
  rcases hlast : (rest.takeWhile fun l => l.start < stop).getLast? with _ | l
  · rw [List.getLast?_eq_none_iff.1 hlast] at hm
    cases hm
  · rw [hlast]
    exact htaken.contentEnd_le hm hlast

/-- A line that a flow collection takes, but that begins behind the collection at `r`. -/
theorem hides_of_taken {r : Span} {parentIndent : ℕ} (hr : r.start = start)
    (hno : trailingErrors r.stop (octetsAt s
      ⟨r.stop, flowLineEnd start cs (flowStop s start cs parentIndent rest) rest⟩) = [])
    (hi : start + cs.length ≤ i) (hrest : LinesFrom s i rest) (hflush : ∀ m ∈ rest, m.IsFlush)
    (hm : m ∈ rest.takeWhile fun l => l.start < flowStop s start cs parentIndent rest)
    (hblank : m.isBlank = false) (hout : r.stop ≤ m.contentStart) : Hides s r m := by
  have hmem := (List.takeWhile_prefix _).subset hm
  have hstop : m.start < flowStop s start cs parentIndent rest := by
    simpa using List.mem_takeWhile_imp hm
  have hfrom := hrest.le_start hmem
  obtain ⟨n, hextent, hn⟩ := exists_extent_of_lt_flowStop
    (show start + cs.length < flowStop s start cs parentIndent rest by omega)
  have hempty := Line.isEmpty_of_not_isBlank hblank
  have hlies := hrest.lies hmem
  obtain ⟨c, hget, hc⟩ := hlies.getElem?_contentStart hempty (hflush m hmem)
  have hlt : m.contentStart < m.contentEnd :=
    Nat.lt_add_of_pos_right (m.length_content_pos (by simp [hblank]))
  refine ⟨hout, ?_, n, hr ▸ hextent, hr ▸ hn ▸ hstop⟩
  exact comment_of_trailingErrors hno hout (hlt.trans_le (le_flowLineEnd hrest hm)) hget hc

theorem blockFlow_covers {parentIndent : ℕ} {t : Taken Tree}
    (h : blockFlow s start cs parentIndent rest = .ok t) (hno : t.errors = [])
    (hstretch : Stretch s start cs) (hhead : cs.head? = some '[' ∨ cs.head? = some '\x7b')
    (hi : start + cs.length ≤ i) (hrest : LinesFrom s i rest) (hflush : ∀ m ∈ rest, m.IsFlush) :
    t.value.span.start = start ∧ t.Covers s start rest := by
  have hne : cs ≠ [] := fun hnil => by simp [hnil] at hhead
  have hlt := lt_flowStop s start parentIndent hne rest
  rw [blockFlow_eq] at h
  obtain ⟨tree, htree, h⟩ := exists_of_bind_eq_ok h
  obtain rfl := Except.ok.inj h
  have hbracket : (octetsAt s ⟨start, flowStop s start cs parentIndent rest⟩).head? = cs.head? := by
    obtain ⟨more, hmore⟩ := hstretch.octets
    obtain ⟨c, cs, rfl⟩ := List.exists_cons_of_ne_nil hne
    rw [octetsAt_eq]
    show (((octets s).drop start).take (_ - start)).head? = _
    rw [← hmore, List.cons_append, ← Nat.succ_pred_eq_of_pos (Nat.sub_pos_of_lt hlt)]
    rfl
  obtain ⟨hspan, hused, hflows⟩ := flowTree_bracketed htree (hbracket ▸ hhead)
  have hstop : tree.value.span.stop = start + tree.used := congrArg Span.stop hspan
  refine ⟨congrArg Span.start hspan, by dsimp only; omega, fun m hm hblank => ?_⟩
  dsimp only at hm hno ⊢
  rw [← List.prefix_iff_eq_take.1 (List.takeWhile_prefix _)] at hm
  rcases Nat.lt_or_ge m.contentStart tree.value.span.stop with hin | hout
  · exact .inl hin
  · refine .inr ⟨tree.value.span, hflows ▸ List.mem_singleton_self _, ?_⟩
    exact hides_of_taken (congrArg Span.start hspan) (hstop ▸ (List.append_eq_nil_iff.1 hno).2)
      hi hrest hflush hm hblank hout

/-- A scalar covers the lines that it takes, all of which begin in it. -/
theorem Taken.Covers.of_scalar {x : Taken Scalar} (hstart : start < x.value.span.stop)
    (hlines : ∀ m ∈ rest.take x.used, m.isBlank = false → m.contentStart < x.value.span.stop) :
    ({ x with value := .scalar x.value } : Taken Tree).Covers s start rest :=
  ⟨hstart, fun m hm hblank => .inl (hlines m hm hblank)⟩

theorem blockPlain_covers {parentIndent : ℕ} {x : Taken Scalar}
    (h : blockPlain s start cs parentIndent rest = .ok x) (hne : cs ≠ [])
    (hhead : cs.head?.any isBlank = false) (hi : start + cs.length ≤ i) (hrest : LinesFrom s i rest)
    (hflush : ∀ m ∈ rest, m.IsFlush) : x.value.span.start = start ∧ start < x.value.span.stop ∧
      ∀ m ∈ rest.take x.used, m.isBlank = false → m.contentStart < x.value.span.stop := by
  have hpos := plainLength_pos hne hhead
  unfold blockPlain at h
  obtain ⟨more, hmore, h⟩ := exists_of_bind_eq_ok h
  rcases more with _ | ⟨tail, stop, used⟩
  · obtain ⟨scalar, hscalar, h⟩ := exists_of_bind_eq_ok h
    obtain rfl := Except.ok.inj h
    unfold plainScalar at hscalar
    obtain ⟨source, -, hscalar⟩ := exists_of_bind_eq_ok hscalar
    obtain rfl := Except.ok.inj hscalar
    exact ⟨rfl, Nat.lt_add_of_pos_right hpos, nofun⟩
  · obtain ⟨head, -, h⟩ := exists_of_bind_eq_ok h
    obtain ⟨source, -, h⟩ := exists_of_bind_eq_ok h
    obtain rfl := Except.ok.inj h
    obtain ⟨-, hstop, hcovers⟩ := foldPlain_covers hmore hrest hflush
    exact ⟨rfl, by dsimp only; omega, hcovers⟩

theorem blockScalar_covers {parentIndent : ℕ} {x : Taken Scalar}
    (h : blockScalar s start cs parentIndent rest = .ok x) (hne : cs ≠ [])
    (hhead : cs.head?.any isBlank = false) (hi : start + cs.length ≤ i)
    (hrest : LinesFrom s i rest) : x.value.span.start = start ∧ start < x.value.span.stop ∧
      ∀ m ∈ rest.take x.used, m.isBlank = false → m.contentStart < x.value.span.stop := by
  have hpos := plainLength_pos hne hhead
  have hle : plainLength cs ≤ cs.length := isSeam_plainLength.le_length
  unfold blockScalar at h
  obtain ⟨header, -, h⟩ := exists_of_bind_eq_ok h
  obtain ⟨block, hblock, h⟩ := exists_of_bind_eq_ok h
  obtain ⟨source, -, h⟩ := exists_of_bind_eq_ok h
  obtain rfl := Except.ok.inj h
  have hheader : (Span.withLength start (plainLength cs)).stop = start + plainLength cs := rfl
  obtain ⟨hstop, hcovers⟩ := blockText_covers hblock hrest (by omega)
  exact ⟨rfl, by dsimp only; omega, hcovers⟩

/-- **Values.** A value covers the lines that it takes, if it has no errors. -/
theorem inlineValue_covers {parentIndent : ℕ} {t : Taken Tree}
    (h : inlineValue s start cs parentIndent rest = .ok t) (hno : t.errors = [])
    (hstretch : Stretch s start cs) (hused : isUsedUp cs = false)
    (hhead : cs.head?.any isBlank = false) (hi : start + cs.length ≤ i)
    (hrest : LinesFrom s i rest) (hflush : ∀ m ∈ rest, m.IsFlush) :
    t.value.span.start = start ∧ t.Covers s start rest := by
  have hne : cs ≠ [] := fun hnil => by simp [hnil, isUsedUp] at hused
  have hquoted {q : Char} {tail : List Char} (hstretch : Stretch s start (q :: tail))
      (hq : IsMark q) (h : (do
        let scalar ← quotedScalar s start (q :: tail)
        return ⟨.scalar scalar.value, 0, scalar.errors ++
          trailingErrors (start + scalar.used) ((q :: tail).drop scalar.used)⟩) =
            (.ok t : Except TornCharacter (Taken Tree))) :
      t.value.span.start = start ∧ t.Covers s start rest := by
    obtain ⟨x, hx, h⟩ := exists_of_bind_eq_ok h
    obtain rfl := Except.ok.inj h
    obtain ⟨y, hy, hspan, -⟩ := quotedScalar_eq_ok hstretch hq.1
    obtain ⟨n, -, hextent, -⟩ := quotedExtent_within hstretch hq.1
    obtain rfl : x = y := Except.ok.inj (hx.symm.trans hy)
    rw [hextent] at hspan
    have hstop : x.value.span.stop = start + (n + 1) := congrArg Span.stop hspan
    exact ⟨congrArg Span.start hspan, show start < x.value.span.stop by omega, fun _ hm => absurd hm (by simp)⟩
  unfold inlineValue at h
  split at h
  · exact hquoted hstretch (by decide) h
  · exact hquoted hstretch (by decide) h
  · exact blockFlow_covers h hno hstretch (.inl rfl) hi hrest hflush
  · exact blockFlow_covers h hno hstretch (.inr rfl) hi hrest hflush
  · obtain ⟨x, hx, h⟩ := exists_of_bind_eq_ok h
    obtain rfl := Except.ok.inj h
    obtain ⟨hspan, hstart, hlines⟩ := blockScalar_covers hx hne hhead hi hrest
    exact ⟨hspan, .of_scalar hstart hlines⟩
  · obtain ⟨x, hx, h⟩ := exists_of_bind_eq_ok h
    obtain rfl := Except.ok.inj h
    obtain ⟨hspan, hstart, hlines⟩ := blockScalar_covers hx hne hhead hi hrest
    exact ⟨hspan, .of_scalar hstart hlines⟩
  · obtain ⟨x, hx, h⟩ := exists_of_bind_eq_ok h
    obtain rfl := Except.ok.inj h
    obtain ⟨hspan, hstart, hlines⟩ := blockPlain_covers hx hne hhead hi hrest hflush
    exact ⟨hspan, .of_scalar hstart hlines⟩

/-! ## Collections -/

theorem le_foldl_max {α : Type} {f : α → ℕ} {xs : List α} :
    i ≤ xs.foldl (fun stop x => max stop (f x)) i ∧
      ∀ x ∈ xs, f x ≤ xs.foldl (fun stop x => max stop (f x)) i := by
  induction xs generalizing i with
  | nil => exact ⟨le_rfl, nofun⟩
  | cons x xs ih =>
    obtain ⟨hinit, hall⟩ := ih (i := max i (f x))
    exact ⟨(le_max_left ..).trans hinit,
      List.forall_mem_cons.2 ⟨(le_max_right ..).trans hinit, hall⟩⟩

theorem colonEnd_pos {extent : KeyExtent} (h : findKey? cs = some extent) : 0 < extent.colonEnd := by
  unfold findKey? at h
  split at h
  all_goals try cases h
  split_ifs at h
  · obtain ⟨n, -, h⟩ := Option.bind_eq_some_iff.1 h
    dsimp only at h
    split_ifs at h
    obtain rfl := Option.some.inj h
    exact Nat.succ_pos _
  · obtain ⟨n, -, rfl⟩ := Option.map_eq_some_iff.1 h
    exact Nat.succ_pos _

/-- A block covers its first line too. -/
structure Taken.CoversBlock (s : String) (l : Line) (rest : List Line) (t : Taken Tree) : Prop where
  start : t.value.span.start = l.contentStart
  start_le : l.contentStart ≤ t.value.span.stop
  lines : ∀ m ∈ l :: rest.take t.used, m.isBlank = false →
    Covered s t.value.span.stop t.value.flows m

/-- What is nested is the first line with content. -/
theorem nestedLine?_split {parentIndent before : ℕ} {underKey : Bool}
    (h : nestedLine? parentIndent underKey rest = some (before, l)) :
    (∀ m ∈ rest.take before, m.isBlank = true) ∧ l.isBlank = false := by
  have hget := getElem?_of_nestedLine h
  have hbefore : (rest.takeWhile Line.isBlank).length = before := by
    unfold nestedLine? at h
    dsimp only at h
    split at h
    · cases h
    · split_ifs at h
      exact (Prod.mk.inj (Option.some.inj h)).1
  have hsplit := List.takeWhile_append_dropWhile (p := Line.isBlank) (l := rest)
  refine ⟨fun m hm => ?_, ?_⟩
  · rw [← hbefore, ← List.prefix_iff_eq_take.1 (List.takeWhile_prefix _)] at hm
    exact List.mem_takeWhile_imp hm
  · have hhead := List.head?_dropWhile_not Line.isBlank rest
    rw [← hsplit, ← hbefore, List.getElem?_append_right le_rfl, Nat.sub_self,
      ← List.head?_eq_getElem?] at hget
    rw [hget] at hhead
    exact hhead

/-- A part of a collection covers its first line and the lines that it uses, the parts behind it the
others. -/
theorem covers_entry {α : Type} {covers : α → Line → Prop} {x : α} {xs : List α} {used more : ℕ}
    (hl : covers x l) (hused : ∀ m ∈ rest.take used, m.isBlank = false → covers x m)
    (hmore : ∀ m ∈ (rest.drop used).take more, m.isBlank = false → ∃ y ∈ xs, covers y m) :
    ∀ m ∈ (l :: rest).take (1 + used + more), m.isBlank = false → ∃ y ∈ x :: xs, covers y m := by
  intro m hm hblank
  rw [Nat.add_assoc, Nat.add_comm 1, List.take_succ_cons, List.take_add] at hm
  rcases List.mem_cons.1 hm with rfl | hm
  · exact ⟨x, List.mem_cons_self, hl⟩
  rcases List.mem_append.1 hm with hm | hm
  · exact ⟨x, List.mem_cons_self, hused m hm hblank⟩
  · obtain ⟨y, hy, hcovered⟩ := hmore m hm hblank
    exact ⟨y, List.mem_cons_of_mem _ hy, hcovered⟩

/-- A line is covered by a collection if one of its parts covers it. -/
theorem Covered.of_part {α : Type} {f : α → ℕ} {g : α → List Span} {xs : List α} {x : α}
    (h : Covered s (f x) (g x) m) (hx : x ∈ xs) :
    Covered s (xs.foldl (fun stop x => max stop (f x)) i) (xs.flatMap g) m :=
  h.mono (le_foldl_max.2 x hx) fun _ hr => List.mem_flatMap.2 ⟨x, hx, hr⟩

mutual

/-- **Blocks.** A block covers the lines that it takes, if it has no errors. -/
theorem block_covers (l : Line) (rest : List Line) (hl : l.Lies s)
    (hrest : LinesFrom s l.breakStart rest) (hblank : l.isBlank = false) (hflush : l.IsFlush)
    (hflushes : ∀ m ∈ rest, m.IsFlush) {t : Taken Tree} (h : block s l rest = .ok t)
    (hno : t.errors = []) : t.CoversBlock s l rest := by
  have hlines : LinesFrom s l.start (l :: rest) := ⟨le_rfl, hl, hrest⟩
  have hall : ∀ m ∈ l :: rest, m.IsFlush := List.forall_mem_cons.2 ⟨hflush, hflushes⟩
  have htake {n : ℕ} (hn : 0 < n) : l :: rest.take (n - 1) = (l :: rest).take n := by
    rw [← List.take_succ_cons, Nat.sub_add_cancel hn]
  rw [block] at h
  split_ifs at h with hitem hkey
  · obtain ⟨items, hitems, h⟩ := exists_of_bind_eq_ok h
    obtain rfl := Except.ok.inj h
    have hcovers := blockItems_covers l.indent (l :: rest) hlines hall hitems hno
    refine ⟨rfl, le_foldl_max.1, fun m hm hm' => ?_⟩
    dsimp only at hm
    rw [htake (used_blockItems_pos hblank hitem hitems)] at hm
    obtain ⟨x, hx, hcovered⟩ := hcovers m hm hm'
    have hpart := Covered.of_part (i := l.contentStart) (f := fun x => max (x.1 + 1) x.2.span.stop)
      (g := fun x => x.2.flows) hcovered hx
    rw [Tree.span, Tree.flows, flowsOfItems_eq, List.flatMap_map]
    exact hpart
  · obtain ⟨pairs, hpairs, h⟩ := exists_of_bind_eq_ok h
    obtain rfl := Except.ok.inj h
    have hcovers := blockPairs_covers l.indent [] (l :: rest) hlines hall hpairs hno
    refine ⟨rfl, le_foldl_max.1, fun m hm hm' => ?_⟩
    dsimp only at hm
    rw [htake (used_blockPairs_pos hblank (Bool.eq_false_iff.2 hitem) hkey hpairs)] at hm
    obtain ⟨x, hx, hcovered⟩ := hcovers m hm hm'
    have hpart := Covered.of_part (i := l.contentStart)
      (f := fun x => max x.1.span.stop x.2.span.stop) (g := fun x => x.2.flows)
      (hcovered.mono (le_max_right ..) fun _ => id) hx
    rw [Tree.span, Tree.flows, flowsOfPairs_eq]
    exact hpart
  · obtain ⟨hspan, hstart, hcovers⟩ := inlineValue_covers h hno hl.content hblank hflush
      hl.contentEnd_le hrest hflushes
    exact ⟨hspan, hstart.le, List.forall_mem_cons.2 ⟨fun _ => .inl hstart, hcovers⟩⟩
termination_by 2 * weight (l :: rest) + 1

theorem blockPairs_covers {i : ℕ} (indent : ℕ) (seen : List String) :
    (lines : List Line) → LinesFrom s i lines → (∀ m ∈ lines, m.IsFlush) →
      ∀ {t : Taken (List (Scalar × Tree))}, blockPairs s indent seen lines = .ok t → t.errors = [] →
        ∀ m ∈ lines.take t.used, m.isBlank = false →
          ∃ x ∈ t.value, Covered s x.2.span.stop x.2.flows m
  | [], _, _, t, _, _ => by
    rw [List.take_nil]
    exact nofun
  | l :: rest, ⟨_, hl, hrest⟩, hflush, t, h, hno => by
    obtain ⟨hflush, hflushes⟩ := List.forall_mem_cons.1 hflush
    have hweight := weight_cons l rest
    rw [blockPairs] at h
    split_ifs at h with hblank hout hmisplaced
    · obtain ⟨more, hmore, h⟩ := exists_of_bind_eq_ok h
      obtain rfl := Except.ok.inj h
      refine List.forall_mem_cons.2 ⟨fun hblank' => ?_,
        blockPairs_covers indent seen rest hrest hflushes hmore hno⟩
      rw [hblank] at hblank'
      cases hblank'
    · obtain rfl := Except.ok.inj h
      exact nofun
    · obtain ⟨more, -, h⟩ := exists_of_bind_eq_ok h
      obtain rfl := Except.ok.inj h
      cases hno
    · split at h
      · obtain ⟨more, -, h⟩ := exists_of_bind_eq_ok h
        obtain rfl := Except.ok.inj h
        cases hno
      · next extent hkey =>
        have hpos := l.length_content_pos hblank
        obtain ⟨hvalueAt, hend⟩ := hl.stretch_value hkey
        have hcolon := colonEnd_pos hkey
        have hseam := (isSeam_findKey hkey).2.le_length
        obtain ⟨key, -, h⟩ := exists_of_bind_eq_ok h
        obtain ⟨value, hvalue, h⟩ := exists_of_bind_eq_ok h
        obtain ⟨more, hmore, h⟩ := exists_of_bind_eq_ok h
        obtain rfl := Except.ok.inj h
        obtain ⟨hno, hnomore⟩ := List.append_eq_nil_iff.1 hno
        have hnovalue := (List.append_eq_nil_iff.1 (List.append_eq_nil_iff.1 hno).1).2
        have hcovers : value.Covers s l.contentStart rest := by
          have hle := hl.contentEnd_le
          split_ifs at hvalue with hused
          · exact blockNested_covers rest hrest hflushes (Nat.lt_add_of_pos_right hcolon)
              ((Nat.add_le_add_left hseam _).trans hle) hvalue hnovalue
          · have hhead := head?_drop_blanks (l.content.drop extent.colonEnd)
            rw [List.drop_drop] at hhead
            obtain ⟨-, hstart, hlines⟩ := inlineValue_covers hvalue hnovalue hvalueAt
              (Bool.eq_false_iff.2 hused) hhead (hend ▸ hle) hrest hflushes
            exact ⟨(Nat.le_add_right _ _).trans_lt hstart, hlines⟩
        have hdrop := weight_drop_le rest value.used
        have hmore := blockPairs_covers indent _ (rest.drop value.used) (hrest.drop _)
          (fun m hm => hflushes m (List.mem_of_mem_drop hm)) hmore hnomore
        exact covers_entry (.inl hcovers.start_lt) hcovers.lines hmore
termination_by lines => 2 * weight lines
decreasing_by
  all_goals omega

theorem blockItems_covers {i : ℕ} (indent : ℕ) :
    (lines : List Line) → LinesFrom s i lines → (∀ m ∈ lines, m.IsFlush) →
      ∀ {t : Taken (List (ℕ × Tree))}, blockItems s indent lines = .ok t → t.errors = [] →
        ∀ m ∈ lines.take t.used, m.isBlank = false →
          ∃ x ∈ t.value, Covered s (max (x.1 + 1) x.2.span.stop) x.2.flows m
  | [], _, _, t, _, _ => by
    rw [List.take_nil]
    exact nofun
  | l :: rest, ⟨_, hl, hrest⟩, hflush, t, h, hno => by
    obtain ⟨hflush, hflushes⟩ := List.forall_mem_cons.1 hflush
    have hweight := weight_cons l rest
    rw [blockItems] at h
    split_ifs at h with hblank hout hdeeper hitem
    · obtain ⟨more, hmore, h⟩ := exists_of_bind_eq_ok h
      obtain rfl := Except.ok.inj h
      refine List.forall_mem_cons.2 ⟨fun hblank' => ?_,
        blockItems_covers indent rest hrest hflushes hmore hno⟩
      rw [hblank] at hblank'
      cases hblank'
    · obtain rfl := Except.ok.inj h
      exact nofun
    · obtain ⟨more, -, h⟩ := exists_of_bind_eq_ok h
      obtain rfl := Except.ok.inj h
      cases hno
    · have hpos := l.length_content_pos hblank
      have hseam {k : ℕ} := isSeam_of_le_itemColumn (k := k) hitem
      have hadvance : weight (l.advance (1 + blanks (l.content.drop 1)) :: rest) <
          weight (l :: rest) := by
        simp only [weight_cons, Line.advance, List.length_drop]
        omega
      obtain ⟨item, hitem', h⟩ := exists_of_bind_eq_ok h
      obtain ⟨more, hmore, h⟩ := exists_of_bind_eq_ok h
      obtain rfl := Except.ok.inj h
      obtain ⟨hnoitem, hnomore⟩ := List.append_eq_nil_iff.1 hno
      have hcovers : ∀ m ∈ rest.take item.used, m.isBlank = false →
          Covered s item.value.span.stop item.value.flows m := by
        split_ifs at hitem' with hused
        · exact (blockNested_covers rest hrest hflushes (Nat.lt_succ_self l.contentStart)
            (hl.contentStart_lt (Line.isEmpty_of_not_isBlank (Bool.eq_false_iff.2 hblank))) hitem'
            hnoitem).lines
        · have hhead := head?_drop_blanks (l.content.drop 1)
          rw [List.drop_drop] at hhead
          exact fun m hm => (block_covers _ rest (hl.advance fun j hj => hseam hj) hrest
            (Bool.eq_false_iff.2 hused) hhead hflushes hitem' hnoitem).lines m
              (List.mem_cons_of_mem _ hm)
      have hdrop := weight_drop_le rest item.used
      have hmore := blockItems_covers indent (rest.drop item.used) (hrest.drop _)
        (fun m hm => hflushes m (List.mem_of_mem_drop hm)) hmore hnomore
      exact covers_entry (.inl ((Nat.lt_succ_self _).trans_le (le_max_left ..)))
        (fun m hm hblank' => (hcovers m hm hblank').mono (le_max_right ..) fun _ => id) hmore
    · obtain rfl := Except.ok.inj h
      exact nofun
termination_by lines => 2 * weight lines
decreasing_by
  all_goals omega

theorem blockNested_covers {i : ℕ} {parentIndent : ℕ} {underKey : Bool} {anchor start : ℕ}
    (rest : List Line) (hlines : LinesFrom s i rest) (hflush : ∀ m ∈ rest, m.IsFlush)
    (hstart : start < anchor) (hi : anchor ≤ i) {t : Taken Tree}
    (h : blockNested s parentIndent underKey anchor rest = .ok t) (hno : t.errors = []) :
    t.Covers s start rest := by
  rcases hline : nestedLine? parentIndent underKey rest with _ | ⟨before, l⟩
  · rw [blockNested_of_eq_none hline] at h
    obtain rfl := Except.ok.inj h
    exact ⟨hstart, nofun⟩
  · rw [blockNested_of_eq_some hline] at h
    have hweight := weight_nestedLine hline
    have hget := getElem?_of_nestedLine hline
    obtain ⟨hl, hafter⟩ := hlines.nested hget
    obtain ⟨tree, htree, h⟩ := exists_of_bind_eq_ok h
    obtain rfl := Except.ok.inj h
    obtain ⟨hbefore, hblank⟩ := nestedLine?_split hline
    have hcovers := block_covers l (rest.drop (before + 1)) hl hafter hblank
      (hflush l (List.mem_of_getElem? hget)) (fun m hm => hflush m (List.mem_of_mem_drop hm)) htree hno
    have hfrom : start < l.contentStart :=
      (hstart.trans_le (hi.trans (hlines.le_start (List.mem_of_getElem? hget)))).trans_le
        (Nat.le_add_right _ _)
    refine ⟨hfrom.trans_le hcovers.start_le, fun m hm hblank' => ?_⟩
    have hdrop : rest.drop before = l :: rest.drop (before + 1) := by
      obtain ⟨hlt, rfl⟩ := List.getElem?_eq_some_iff.1 hget
      exact List.drop_eq_getElem_cons hlt
    dsimp only at hm
    rw [Nat.add_assoc, Nat.add_comm 1, List.take_add, hdrop, List.take_succ_cons] at hm
    rcases List.mem_append.1 hm with hm | hm
    · rw [hbefore m hm] at hblank'
      cases hblank'
    · exact hcovers.lines m hm hblank'
termination_by 2 * weight rest + 2

end

/-! ## Documents -/

/-- **Coverage.** In a document without errors each line with content begins in the root, or is hidden
behind one of the flow collections. -/
theorem Document.ofText_covers {d : Document} (h : Document.ofText s = .ok d)
    (hvalid : d.isValid = true) (hm : m ∈ linesOf s) (hblank : m.isBlank = false) :
    ∃ root, d.root = some root ∧ root.span.start ≤ m.contentStart ∧
      Covered s root.span.stop root.flows m := by
  have hsplit := List.takeWhile_append_dropWhile (p := Line.isBlank) (l := linesOf s)
  have hsuffix := List.dropWhile_suffix Line.isBlank (l := linesOf s)
  obtain ⟨k, hk⟩ : ∃ k, (linesOf s).dropWhile Line.isBlank = (linesOf s).drop k :=
    ⟨_, List.suffix_iff_eq_drop.1 hsuffix⟩
  have hfrom := (linesFrom_linesOf s).drop k
  have hflush : ∀ m ∈ (linesOf s).drop k, m.IsFlush := fun m hm => by
    obtain ⟨p, -, rfl⟩ := List.mem_map.1 (List.mem_of_mem_drop hm)
    exact isFlush_ofOctets _ _
  have hm : m ∈ (linesOf s).drop k := by
    rw [← hsplit] at hm
    rcases List.mem_append.1 hm with hm | hm
    · rw [List.mem_takeWhile_imp hm] at hblank
      cases hblank
    · exact hk ▸ hm
  have hhead := List.head?_dropWhile_not Line.isBlank (linesOf s)
  unfold Document.ofText at h
  rw [hk] at h hhead
  generalize (linesOf s).drop k = lines at hfrom hflush hm h hhead
  rcases lines with _ | ⟨l, rest⟩
  · cases hm
  obtain ⟨-, hl, hrest⟩ := hfrom
  obtain ⟨hflushl, hflushes⟩ := List.forall_mem_cons.1 hflush
  obtain ⟨tree, htree, h⟩ := exists_of_bind_eq_ok h
  obtain rfl := Except.ok.inj h
  obtain ⟨hno, hstray⟩ := List.append_eq_nil_iff.1 (List.isEmpty_iff.1 hvalid)
  have hcovers := block_covers l rest hl hrest hhead hflushl hflushes htree
    (List.append_eq_nil_iff.1 hno).2
  refine ⟨tree.value, rfl, ?_, ?_⟩
  · rw [hcovers.start]
    rcases List.mem_cons.1 hm with rfl | hm
    · exact le_rfl
    · have hstart := hrest.le_start hm
      have hle := hl.contentEnd_le
      unfold Line.contentEnd at hle
      unfold Line.contentStart at hle ⊢
      omega
  · rw [← List.take_append_drop tree.used rest, ← List.cons_append] at hm
    rcases List.mem_append.1 hm with hm | hm
    · exact hcovers.lines m hm hblank
    · rw [strayErrors, List.map_eq_nil_iff, List.filter_eq_nil_iff] at hstray
      have hblank' := hstray m hm
      rw [hblank] at hblank'
      exact absurd rfl hblank'

/-- **Lines of a valid document.** All lines with content begin in the root, unless a flow collection hides
one that is behind the root. -/
theorem Document.contains_lines_iff {d : Document} (h : Document.ofText s = .ok d)
    (hvalid : d.isValid = true) :
    (∀ m ∈ linesOf s, m.isBlank = false →
      ∃ root, d.root = some root ∧ root.span.containsByte m.contentStart = true) ↔
    ∀ root ∈ d.root, ∀ r ∈ root.flows, ∀ m ∈ linesOf s, m.isBlank = false →
      root.span.stop ≤ m.contentStart → ¬ Hides s r m := by
  constructor
  · rintro hall root hroot r - m hm hblank hstop -
    obtain ⟨root', hroot', hcontains⟩ := hall m hm hblank
    obtain rfl : root = root' := Option.some.inj (hroot.symm.trans hroot')
    rw [Span.containsByte_iff] at hcontains
    omega
  · intro hall m hm hblank
    obtain ⟨root, hroot, hstart, hcovered⟩ := ofText_covers h hvalid hm hblank
    refine ⟨root, hroot, Span.containsByte_iff.2 ⟨hstart, ?_⟩⟩
    rcases hcovered with hlt | ⟨r, hr, hides⟩
    · exact hlt
    · by_contra hstop
      exact hall root hroot r hr m hm hblank (Nat.le_of_not_lt hstop) hides

def twoLineCollection : String := "k: [a,\n  b] # c"

theorem Document.contains_lines_iff_twoLineCollection : ∃ d,
    Document.ofText twoLineCollection = .ok d ∧ d.isValid = true ∧
      ((∀ m ∈ linesOf twoLineCollection, m.isBlank = false →
        ∃ root, d.root = some root ∧ root.span.containsByte m.contentStart = true) ↔
      ∀ root ∈ d.root, ∀ r ∈ root.flows, ∀ m ∈ linesOf twoLineCollection, m.isBlank = false →
        root.span.stop ≤ m.contentStart → ¬ Hides twoLineCollection r m) := by
  have hread : (Document.ofText twoLineCollection).toOption.any Document.isValid = true := by
    decide +kernel
  obtain ⟨d, hd, hvalid⟩ := exists_of_any_toOption hread
  exact ⟨d, hd, hvalid, contains_lines_iff hd hvalid⟩

/-- In the entry the extent takes the quote for an opening one, the reader does not. -/
def quoteInEntry : String := "k: [a\"b] # x\n  c: \" ]"

/-- The second line is in no node, though there is no error. -/
theorem Document.not_contains_lines_quoteInEntry : ¬ ∀ d,
    Document.ofText quoteInEntry = .ok d → d.isValid = true →
      ∀ m ∈ linesOf quoteInEntry, m.isBlank = false →
        ∃ root, d.root = some root ∧ root.span.containsByte m.contentStart = true := by
  intro hall
  have hread : ((Document.ofText quoteInEntry).toOption.any fun d => d.isValid &&
      (linesOf quoteInEntry).any fun m => !m.isBlank &&
        !(d.root.any fun root => root.span.containsByte m.contentStart)) = true := by
    decide +kernel
  obtain ⟨d, hd, hread⟩ := exists_of_any_toOption hread
  obtain ⟨hvalid, hlost⟩ := Bool.and_eq_true_iff.1 hread
  obtain ⟨m, hm, hlost⟩ := List.any_eq_true.1 hlost
  obtain ⟨hblank, hout⟩ := Bool.and_eq_true_iff.1 hlost
  obtain ⟨root, hroot, hin⟩ := hall d hd hvalid m hm (by simpa using hblank)
  rw [hroot, Option.any_some, hin] at hout
  cases hout

end Polyglot.Data
