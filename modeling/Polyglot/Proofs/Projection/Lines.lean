import Polyglot.Proofs.Text.Octet
import Polyglot.Text.Lines
import Polyglot.Projection.DataLiteral

/-!
# Lines of a text and lines of its characters

The lines of a text are found on its octets, those of a block on its characters. Both find the same
ones (`lineSpans_ofText`), with the same starts and the same blanks (`map_lineStart`).
-/

namespace Polyglot

open Text

/-! ## Spans of lines -/

namespace LineTable

variable {t : LineTable} {n : ℕ}

/-- The lines of a text, their feeds left out. -/
def lineSpans (t : LineTable) : List Span := (List.range t.lineCount).filterMap t.lineSpan?

/-- Where the lines end: each but the last in front of the feed before the next one. -/
def ends (t : LineTable) : List ℕ := t.starts.tail.map (· - 1) ++ [t.size]

theorem lineCount_le_length_ends (t : LineTable) : t.lineCount ≤ t.ends.length := by
  rw [ends, List.length_append, List.length_map, List.length_tail, List.length_singleton, lineCount]
  omega

theorem lineEnd?_eq (h : n < t.lineCount) : t.lineEnd? n = t.ends[n]? := by
  rw [lineEnd?, if_pos h, ends, ← List.getElem?_tail]
  rw [lineCount] at h
  rcases hnext : t.starts.tail[n]? with _ | next
  · have hlen := List.getElem?_eq_none_iff.1 hnext
    rw [List.getElem?_append_right (by rwa [List.length_map]), List.length_map]
    rw [List.length_tail] at hlen ⊢
    rw [show n - (t.starts.length - 1) = 0 by omega]
    rfl
  · have hlen := (List.getElem?_eq_some_iff.1 hnext).1
    rw [List.getElem?_append_left (by rwa [List.length_map]), List.getElem?_map, hnext]
    rfl

/-- The span of each line, by its number. -/
theorem map_lineSpan? (t : LineTable) : (List.range t.lineCount).map t.lineSpan? =
    (List.zipWith Span.mk t.starts t.ends).map some := by
  have hle := t.lineCount_le_length_ends
  refine List.ext_getElem ?_ fun n hn _ => ?_
  · rw [List.length_map, List.length_range, List.length_map, List.length_zipWith]
    exact (Nat.min_eq_left hle).symm
  · rw [List.length_map, List.length_range] at hn
    rw [List.getElem_map, List.getElem_range, List.getElem_map, List.getElem_zipWith, lineSpan?,
      lineStart?, List.getElem?_eq_getElem hn, lineEnd?_eq hn,
      List.getElem?_eq_getElem (hn.trans_le hle)]
    rfl

theorem lineSpans_eq_zipWith (t : LineTable) :
    t.lineSpans = List.zipWith Span.mk t.starts t.ends := by
  have hfilter := congrArg (List.filterMap id) t.map_lineSpan?
  rwa [List.filterMap_map, List.filterMap_map, Function.id_comp, Function.id_comp,
    List.filterMap_some] at hfilter

theorem lineSpan?_eq (t : LineTable) (n : ℕ) : t.lineSpan? n = t.lineSpans[n]? := by
  have hget := congrArg (·[n]?) t.map_lineSpan?
  rw [← t.lineSpans_eq_zipWith] at hget
  simp only [List.getElem?_map] at hget
  rcases Nat.lt_or_ge n t.lineCount with hlt | hge
  · rw [List.getElem?_range hlt] at hget
    rcases hspan : t.lineSpans[n]? with _ | r
    · rw [hspan] at hget
      cases hget
    · rw [hspan] at hget
      exact Option.some.inj hget
  · rw [List.getElem?_eq_none (by rwa [List.length_range]), Option.map_none] at hget
    rw [Option.map_eq_none_iff.1 hget.symm, lineSpan?, lineEnd?, if_neg (Nat.not_lt.2 hge)]
    rcases t.lineStart? n with _ | start <;> rfl

end LineTable

/-! ## Feeds among octets -/

namespace Text

variable {s : String} {xs : List Char}

/-- A line of a text: its start, and whether it is blank. -/
def lineStart (s : String) (line : Span) : ℕ × Bool :=
  (line.start, (line.slice? s).any isAllWhite)

theorem feed_notMem_octets (h : '\n' ∉ s.toList) : '\n' ∉ octets s := by
  intro hmem
  obtain ⟨xs, ys, hsplit⟩ := List.append_of_mem hmem
  rw [← List.singleton_append, ← List.append_assoc] at hsplit
  obtain ⟨a, b, rfl, -⟩ :=
    exists_split_of_octets hsplit (List.cons_ne_nil _ _) (by simp [IsAsciiOctet])
  exact h (by simp)

theorem startsAfterFeeds_of_notMem (h : '\n' ∉ xs) (i : ℕ) : startsAfterFeeds xs i = [] := by
  induction xs generalizing i with
  | nil => rfl
  | cons x xs ih =>
    obtain ⟨hx, hxs⟩ := List.ne_and_not_mem_of_not_mem_cons h
    rw [startsAfterFeeds, if_neg hx.symm, ih hxs]

theorem startsAfterFeeds_feed (h : '\n' ∉ xs) (ys : List Char) (i : ℕ) :
    startsAfterFeeds (xs ++ '\n' :: ys) i =
      (i + xs.length + 1) :: startsAfterFeeds ys (i + xs.length + 1) := by
  induction xs generalizing i with
  | nil => rw [List.nil_append, startsAfterFeeds, if_pos rfl, List.length_nil, Nat.add_zero]
  | cons x xs ih =>
    obtain ⟨hx, hxs⟩ := List.ne_and_not_mem_of_not_mem_cons h
    rw [List.cons_append, startsAfterFeeds, if_neg hx.symm, ih hxs, List.length_cons,
      Nat.add_right_comm i 1, Nat.add_assoc i xs.length 1]

end Text

namespace DataLiteral

variable {cs ds : List Char} {i : ℕ} {s : String}

theorem byteLength_eq (cs : List Char) : byteLength cs = size (String.ofList cs) := by
  induction cs with
  | nil => rfl
  | cons c cs ih => rw [byteLength, ih, size_ofList_cons]

theorem byteLength_toList (s : String) : byteLength s.toList = size s := by
  rw [byteLength_eq, String.ofList_toList]

theorem byteLength_append (cs ds : List Char) :
    byteLength (cs ++ ds) = byteLength cs + byteLength ds := by
  rw [byteLength_eq, String.ofList_append, size_append, byteLength_eq, byteLength_eq]

theorem byteLength_append_feed (cs ds : List Char) :
    byteLength (cs ++ '\n' :: ds) = byteLength cs + 1 + byteLength ds := by
  rw [byteLength_append, byteLength, Nat.add_assoc]
  rfl

/-! ## Splitting at feeds -/

theorem splitLines_of_notMem (h : '\n' ∉ cs) : splitLines cs = [cs] := by
  induction cs with
  | nil => rfl
  | cons c cs ih =>
    obtain ⟨hc, hcs⟩ := List.ne_and_not_mem_of_not_mem_cons h
    rw [splitLines, if_neg hc.symm, ih hcs]

theorem splitLines_feed (h : '\n' ∉ cs) (ds : List Char) :
    splitLines (cs ++ '\n' :: ds) = cs :: splitLines ds := by
  induction cs with
  | nil => rw [List.nil_append, splitLines, if_pos rfl]
  | cons c cs ih =>
    obtain ⟨hc, hcs⟩ := List.ne_and_not_mem_of_not_mem_cons h
    rw [List.cons_append, splitLines, if_neg hc.symm, ih hcs]

/-- Characters are a last line, or a line and a feed in front of others. -/
theorem lines_induction {motive : List Char → Prop} (last : ∀ cs, '\n' ∉ cs → motive cs)
    (feed : ∀ cs ds, '\n' ∉ cs → motive ds → motive (cs ++ '\n' :: ds)) (cs : List Char) :
    motive cs := by
  by_cases h : '\n' ∈ cs
  · obtain ⟨as, bs, hcs, has⟩ := List.eq_append_cons_of_mem h
    have hlt : bs.length < cs.length := by
      rw [hcs, List.length_append, List.length_cons]
      omega
    rw [hcs]
    exact feed as bs has (lines_induction last feed bs)
  · exact last cs h
termination_by cs.length

/-- The spans of lines, the first of which begins at offset `i`. -/
def spansOf (i : ℕ) : List (List Char) → List Span
  | [] => []
  | line :: rest => ⟨i, i + byteLength line⟩ :: spansOf (i + byteLength line + 1) rest

theorem length_spansOf (i : ℕ) (lines : List (List Char)) :
    (spansOf i lines).length = lines.length := by
  induction lines generalizing i with
  | nil => rfl
  | cons line rest ih => rw [spansOf, List.length_cons, ih, List.length_cons]

theorem spansOf_feed (i : ℕ) (cs ds : List Char) :
    spansOf i (splitLines (cs ++ '\n' :: ds)) =
      spansOf i (splitLines cs) ++ spansOf (i + byteLength cs + 1) (splitLines ds) := by
  induction cs using lines_induction generalizing i with
  | last cs h =>
    rw [splitLines_feed h, splitLines_of_notMem h]
    rfl
  | feed cs bs h ih =>
    have hlen : i + byteLength (cs ++ '\n' :: bs) + 1 =
        i + byteLength cs + 1 + byteLength bs + 1 := by
      rw [byteLength_append_feed]
      omega
    rw [List.append_assoc, List.cons_append, splitLines_feed h, splitLines_feed h, spansOf, spansOf,
      ih, hlen, List.cons_append]

/-! ## The lines of a text -/

theorem zipWith_starts (i : ℕ) (cs : List Char) :
    List.zipWith Span.mk (i :: startsAfterFeeds (octets (String.ofList cs)) i)
      ((startsAfterFeeds (octets (String.ofList cs)) i).map (· - 1) ++ [i + byteLength cs]) =
      spansOf i (splitLines cs) := by
  induction cs using lines_induction generalizing i with
  | last cs h =>
    rw [splitLines_of_notMem h, startsAfterFeeds_of_notMem (feed_notMem_octets (by simpa using h))]
    rfl
  | feed cs ds h ih =>
    have hoctets : octets (String.ofList (cs ++ '\n' :: ds)) =
        octets (String.ofList cs) ++ '\n' :: octets (String.ofList ds) := by
      rw [String.ofList_append, octets_append, String.ofList_cons, octets_append,
        octets_singleton (by decide), List.singleton_append]
    have hlen : i + byteLength (cs ++ '\n' :: ds) = i + byteLength cs + 1 + byteLength ds := by
      rw [byteLength_append_feed]
      omega
    rw [hoctets, startsAfterFeeds_feed (feed_notMem_octets (by simpa using h)), length_octets,
      ← byteLength_eq, splitLines_feed h, spansOf, ← ih, hlen, List.map_cons, List.cons_append,
      List.zipWith_cons_cons, Nat.add_sub_cancel]

/-- **Lines.** The lines of a text are those of its characters. -/
theorem lineSpans_ofText (s : String) :
    (LineTable.ofText s).lineSpans = spansOf 0 (splitLines s.toList) := by
  rw [LineTable.lineSpans_eq_zipWith, ← zipWith_starts, String.ofList_toList, byteLength_toList,
    Nat.zero_add]
  rfl

theorem lineStart_split (a b : String) (line : List Char) :
    lineStart (a ++ String.ofList line ++ b) ⟨size a, size a + byteLength line⟩ =
      (size a, line.all isWhite) := by
  have hslice : (⟨size a, size a + byteLength line⟩ : Span).slice?
      (a ++ String.ofList line ++ b) = some (String.ofList line) :=
    Span.slice?_eq_some_iff.2 ⟨a, b, rfl, rfl, by rw [size_append, byteLength_eq]⟩
  rw [lineStart, hslice, Option.any_some, isAllWhite, String.toList_ofList]

/-- The starts of the lines of a part of a text, and which of them are blank. -/
theorem map_lineStart (a b : String) (cs : List Char) :
    (spansOf (size a) (splitLines cs)).map (lineStart (a ++ String.ofList cs ++ b)) =
      lineStarts (size a) (splitLines cs) := by
  induction cs using lines_induction generalizing a with
  | last cs h =>
    rw [splitLines_of_notMem h, spansOf, spansOf, List.map_singleton, lineStart_split]
    rfl
  | feed cs ds h ih =>
    have hline : a ++ String.ofList (cs ++ '\n' :: ds) ++ b =
        a ++ String.ofList cs ++ (String.singleton '\n' ++ String.ofList ds ++ b) := by
      rw [String.ofList_append, String.ofList_cons]
      simp only [String.append_assoc]
    have hrest : a ++ String.ofList (cs ++ '\n' :: ds) ++ b =
        a ++ String.ofList cs ++ String.singleton '\n' ++ String.ofList ds ++ b := by
      rw [hline]
      simp only [String.append_assoc]
    have hsize : size a + byteLength cs + 1 =
        size (a ++ String.ofList cs ++ String.singleton '\n') := by
      rw [size_append, size_append, byteLength_eq]
      rfl
    rw [splitLines_feed h, spansOf, lineStarts, List.map_cons, hsize, hrest, ih, ← hrest, hline,
      lineStart_split]

end DataLiteral

end Polyglot
