import Polyglot.Proofs.FrontMatter
import Polyglot.Proofs.Projection.Lines

/-!
# Lines between the fences

The lines that the literal may anchor are those that begin between the fences of the document
(`contentLines_eq`).
-/

namespace Polyglot

open Text

/-- An offset behind the start of the opening fence, and in front of a closing one. -/
def FrontMatter.encloses (f : FrontMatter) (i : ℕ) : Bool :=
  match f with
  | .absent => false
  | .opened start => start < i
  | .closed start stop => start < i && i < stop - fenceLength

/-- The lines of a text strictly between those of the fences. -/
def FrontMatter.innerLines (f : FrontMatter) (s : String) : List Span :=
  (LineTable.ofText s).lineSpans.filter fun line => f.encloses line.start

namespace DataLiteral

variable {cs ds : List Char} {i : ℕ} {r : Span}

/-! ## Where lines begin -/

theorem le_start_of_mem {lines : List (List Char)} (h : r ∈ spansOf i lines) : i ≤ r.start := by
  induction lines generalizing i with
  | nil => exact absurd h List.not_mem_nil
  | cons line rest ih =>
    rcases List.mem_cons.1 h with rfl | h
    · exact le_rfl
    · have := ih h
      omega

/-- No line begins in a part without feeds. -/
theorem start_le_of_mem (hds : '\n' ∉ ds) (h : r ∈ spansOf i (splitLines (cs ++ ds))) :
    r.start ≤ i + byteLength cs := by
  induction cs using lines_induction generalizing i with
  | last cs hcs =>
    have hfree : '\n' ∉ cs ++ ds := by
      rw [List.mem_append]
      exact not_or.2 ⟨hcs, hds⟩
    rw [splitLines_of_notMem hfree] at h
    obtain rfl := List.mem_singleton.1 h
    exact Nat.le_add_right _ _
  | feed cs bs hcs ih =>
    rw [List.append_assoc, List.cons_append, splitLines_feed hcs] at h
    rw [byteLength_append_feed]
    rcases List.mem_cons.1 h with rfl | h
    · exact Nat.le_add_right _ _
    · have := ih h
      omega

theorem spansOf_ne_nil (i : ℕ) (cs : List Char) : spansOf i (splitLines cs) ≠ [] := by
  induction cs using lines_induction with
  | last cs h =>
    rw [splitLines_of_notMem h]
    exact List.cons_ne_nil _ _
  | feed cs ds h _ =>
    rw [splitLines_feed h]
    exact List.cons_ne_nil _ _

theorem filter_start_le (hds : '\n' ∉ ds) :
    (spansOf i (splitLines (cs ++ ds))).filter (fun r => i + byteLength cs < r.start) = [] := by
  apply List.filter_eq_nil_iff.2
  intro r hr
  have hle := start_le_of_mem hds hr
  rw [decide_eq_true_eq]
  omega

/-- The lines that begin behind a point are those after the line of the point. -/
theorem filter_spansOf (i : ℕ) (cs : List Char) (hds : '\n' ∉ ds) (es : List Char) :
    (spansOf i (splitLines (cs ++ ds ++ es))).filter (fun r => i + byteLength cs < r.start) =
      (spansOf (i + byteLength (cs ++ ds)) (splitLines es)).tail := by
  by_cases hes : '\n' ∈ es
  · obtain ⟨as, bs, rfl, has⟩ := List.eq_append_cons_of_mem hes
    have hfree : '\n' ∉ ds ++ as := by
      rw [List.mem_append]
      exact not_or.2 ⟨hds, has⟩
    have hstart : i + byteLength (cs ++ (ds ++ as)) + 1 =
        i + byteLength (cs ++ ds) + byteLength as + 1 := by
      rw [← List.append_assoc, byteLength_append _ as]
      omega
    have hrest : (spansOf (i + byteLength (cs ++ (ds ++ as)) + 1) (splitLines bs)).filter
        (fun r => i + byteLength cs < r.start) =
        spansOf (i + byteLength (cs ++ (ds ++ as)) + 1) (splitLines bs) := by
      apply List.filter_eq_self.2
      intro r hr
      have hle := le_start_of_mem hr
      rw [byteLength_append] at hle
      rw [decide_eq_true_eq]
      omega
    rw [← List.append_assoc, List.append_assoc cs, spansOf_feed, List.filter_append,
      filter_start_le hfree, hrest, List.nil_append, splitLines_feed has, spansOf, List.tail_cons,
      hstart]
  · have hfree : '\n' ∉ ds ++ es := by
      rw [List.mem_append]
      exact not_or.2 ⟨hds, hes⟩
    rw [List.append_assoc, filter_start_le hfree, splitLines_of_notMem hes]
    rfl

/-! ## Lines of the content -/

theorem innerLines_opened (a inner : String) :
    (FrontMatter.opened (size a)).innerLines (a ++ "---" ++ inner) =
      (spansOf (size (a ++ "---")) (splitLines inner.toList)).tail := by
  rw [FrontMatter.innerLines, lineSpans_ofText, String.toList_append, String.toList_append]
  have hdashes : '\n' ∉ "---".toList := by decide
  have h := filter_spansOf 0 a.toList hdashes inner.toList
  rw [← String.toList_append, byteLength_toList, byteLength_toList, Nat.zero_add, Nat.zero_add,
    String.toList_append] at h
  exact h

theorem innerLines_closed (a inner b : String) :
    (FrontMatter.closed (size a) (size (a ++ "---" ++ inner ++ "\n" ++ "---"))).innerLines
      (a ++ "---" ++ inner ++ "\n" ++ "---" ++ b) =
      (spansOf (size (a ++ "---")) (splitLines inner.toList)).tail := by
  have hchars : (a ++ "---" ++ inner ++ "\n" ++ "---" ++ b).toList =
      (a ++ "---" ++ inner).toList ++ '\n' :: ("---" ++ b).toList := by
    simp only [String.toList_append, List.append_assoc]
    rfl
  have hstop : size (a ++ "---" ++ inner ++ "\n" ++ "---") - FrontMatter.fenceLength =
      size (a ++ "---" ++ inner) + 1 := by
    rw [FrontMatter.size_fence, Nat.add_sub_cancel]
    exact size_append _ "\n"
  rw [← innerLines_opened, FrontMatter.innerLines, FrontMatter.innerLines, lineSpans_ofText,
    lineSpans_ofText, hchars, spansOf_feed, List.filter_append, byteLength_toList, Nat.zero_add]
  have hbehind : (spansOf (size (a ++ "---" ++ inner) + 1)
      (splitLines ("---" ++ b).toList)).filter (fun line => (FrontMatter.closed (size a)
        (size (a ++ "---" ++ inner ++ "\n" ++ "---"))).encloses line.start) = [] := by
    apply List.filter_eq_nil_iff.2
    intro r hr
    have hle := le_start_of_mem hr
    rw [FrontMatter.encloses, hstop, Bool.and_eq_true, decide_eq_true_eq, decide_eq_true_eq]
    omega
  rw [hbehind, List.append_nil]
  apply List.filter_congr
  intro r hr
  have hle : r.start ≤ 0 + byteLength (a ++ "---" ++ inner).toList :=
    start_le_of_mem (List.not_mem_nil) (by rwa [List.append_nil])
  rw [byteLength_toList] at hle
  have hlt : r.start < size (a ++ "---" ++ inner) + 1 := by omega
  rw [FrontMatter.encloses, FrontMatter.encloses, hstop, decide_eq_true hlt, Bool.and_true]

/-- The lines of the content, found in the document instead of the block. -/
theorem contentLines_of_split {a a' : String} (ha : size a' = size a) (inner b b' : String)
    (closed : Bool) :
    contentLines (a' ++ inner ++ b') ⟨size a', size (a' ++ inner)⟩ closed =
      (if closed then ((spansOf (size a) (splitLines inner.toList)).tail).dropLast
        else (spansOf (size a) (splitLines inner.toList)).tail).map
        (lineStart (a ++ inner ++ b)) := by
  have hslice : (⟨size a', size (a' ++ inner)⟩ : Span).slice? (a' ++ inner ++ b') = some inner :=
    Span.slice?_eq_some_iff.2 ⟨a', b', rfl, rfl, rfl⟩
  have hmap := map_lineStart a b inner.toList
  rw [String.ofList_toList] at hmap
  rw [contentLines, hslice]
  show (if closed then _ else _) = _
  rw [ha, ← hmap, ← List.map_tail, ← List.map_dropLast]
  cases closed
  · rfl
  · rfl

/-- **Blank lines.** The lines of the content are those between the fences of the document. -/
theorem contentLines_eq {s block : String} {content : Span}
    (hblock : (FrontMatter.scan s).blankFences s = some block)
    (hcontent : (FrontMatter.scan s).contentSpan? (size block) = some content) :
    contentLines block content (FrontMatter.scan s).isClosed =
      ((FrontMatter.scan s).innerLines s).map (lineStart s) := by
  rcases hf : FrontMatter.scan s with _ | start | ⟨start, stop⟩
  · rw [hf] at hblock
    cases hblock
  · obtain ⟨a, inner, rfl, rfl⟩ := FrontMatter.scan_opened hf
    rw [hf, FrontMatter.blankFences_opened] at hblock
    obtain rfl := Option.some.inj hblock
    rw [hf, FrontMatter.contentSpan?_opened] at hcontent
    obtain rfl := Option.some.inj hcontent
    have h := contentLines_of_split (FrontMatter.size_blanked a) inner "" "" false
    rw [String.append_empty, String.append_empty] at h
    rw [innerLines_opened]
    exact h
  · obtain ⟨a, inner, b, rfl, rfl, rfl⟩ := FrontMatter.scan_closed hf
    have hassoc : a ++ "---" ++ inner ++ "\n" = a ++ "---" ++ (inner ++ "\n") :=
      String.append_assoc
    rw [hf, hassoc, FrontMatter.blankFences_closed] at hblock
    obtain rfl := Option.some.inj hblock
    rw [hf, hassoc, FrontMatter.contentSpan?_closed] at hcontent
    obtain rfl := Option.some.inj hcontent
    have h := contentLines_of_split (FrontMatter.size_blanked a) (inner ++ "\n") ("---" ++ b) "   "
      true
    -- The closing fence stands at the start of the last line, which is left out.
    have hlast : ((spansOf (size (a ++ "---")) (splitLines (inner ++ "\n").toList)).tail).dropLast =
        (spansOf (size (a ++ "---")) (splitLines inner.toList)).tail := by
      have hfeed : (inner ++ "\n").toList = inner.toList ++ '\n' :: [] := String.toList_append
      rw [hfeed, spansOf_feed, List.tail_append_of_ne_nil (spansOf_ne_nil _ _)]
      exact List.dropLast_concat
    have hsplit : a ++ "---" ++ (inner ++ "\n") ++ ("---" ++ b) =
        a ++ "---" ++ inner ++ "\n" ++ "---" ++ b := by
      rw [← hassoc, ← String.append_assoc]
    rw [if_pos rfl, hlast, hsplit] at h
    rw [innerLines_closed]
    exact h

end DataLiteral

end Polyglot
