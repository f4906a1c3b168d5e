import Polyglot.Proofs.Text.Boundary
import Polyglot.Text.Lines
import Polyglot.Map.Segment

/-!
# Offsets of columns

A UTF-16 column counts whole characters, so its offset is a boundary whatever line and column are
asked for (`isBoundary_offset16`). Byte columns carry no such promise.
-/

namespace Polyglot

namespace Text

/-- The bytes before a column are those of a first part of the characters. -/
theorem bytesBefore16_eq_size (cs : List Char) (column : ℕ) :
    ∃ p q, cs = p ++ q ∧ bytesBefore16 cs column = size (String.ofList p) := by
  induction cs generalizing column with
  | nil => exact ⟨[], [], rfl, rfl⟩
  | cons c cs ih =>
    unfold bytesBefore16
    split_ifs with h
    · exact ⟨[], c :: cs, rfl, rfl⟩
    · obtain ⟨p, q, rfl, hp⟩ := ih (column - units16 c)
      refine ⟨c :: p, q, rfl, ?_⟩
      rw [hp, size_ofList_cons]

end Text

namespace LineTable

open Text

theorem isBoundary_offset16 (s : String) (line column : ℕ) :
    isBoundary s ((ofText s).offset16 s line column) = true := by
  unfold offset16
  split
  · exact isBoundary_size s
  · next r _ =>
    split
    · exact isBoundary_size s
    · next content hc =>
      obtain ⟨a, b, rfl, ha, -⟩ := Span.slice?_eq_some_iff.1 hc
      obtain ⟨p, q, hpq, hp⟩ := bytesBefore16_eq_size content.toList column
      have hcontent : content = String.ofList p ++ String.ofList q := by
        rw [← String.ofList_append, ← hpq, String.ofList_toList]
      refine isBoundary_iff.2 ⟨a ++ String.ofList p, String.ofList q ++ b, ?_, ?_⟩
      · conv_lhs => rw [hcontent]
        simp only [String.append_assoc]
      · rw [size_append, ha, hp]

/-- A place counted in UTF-16 columns lies on a boundary. -/
theorem isBoundary_offsetOf_utf16 (s : String) (p : Place) :
    isBoundary s ((ofText s).offsetOf s p .utf16) = true := by
  unfold offsetOf offsetIn
  exact isBoundary_offset16 s p.line p.column

/-- Every offset from the start of a line on lies on that line or on one of those behind it. -/
theorem exists_line {cs : List Char} {start i o : ℕ} (hstart : start ≤ o)
    (ho : o ≤ i + cs.length) :
    ∃ line a, (start :: startsAfterFeeds cs i)[line]? = some a ∧ a ≤ o ∧
      ∀ b ∈ (start :: startsAfterFeeds cs i)[line + 1]?, o < b := by
  induction cs generalizing start i with
  | nil => exact ⟨0, start, rfl, hstart, fun b hb => by cases hb⟩
  | cons c cs ih =>
    rw [List.length_cons] at ho
    unfold startsAfterFeeds
    split_ifs
    · by_cases hlt : o < i + 1
      · refine ⟨0, start, rfl, hstart, fun b hb => ?_⟩
        cases hb
        exact hlt
      · obtain ⟨line, a, ha, hle, hnext⟩ := ih (i := i + 1) (Nat.not_lt.1 hlt) (by omega)
        exact ⟨line + 1, a, ha, hle, hnext⟩
    · exact ih hstart (by omega)

/-- Every offset of a text has a line and a byte column. -/
theorem exists_offset {s : String} {o : ℕ} (ho : o ≤ Text.size s) :
    ∃ line column, (ofText s).offset line column = o := by
  have hlength : o ≤ 0 + (octets s).length := by rwa [Nat.zero_add, length_octets]
  obtain ⟨line, a, ha, hle, hnext⟩ := exists_line (Nat.zero_le o) hlength
  have hstart : (ofText s).lineStart? line = some a := ha
  have hcount : line < (ofText s).lineCount := (List.getElem?_eq_some_iff.1 ha).1
  refine ⟨line, o - a, ?_⟩
  unfold offset lineSpan? lineEnd?
  rw [hstart, if_pos hcount]
  rcases hafter : (ofText s).starts[line + 1]? with _ | b
  · show min (a + (o - a)) (Text.size s) = o
    omega
  · have hlt := hnext b hafter
    show min (a + (o - a)) (b - 1) = o
    omega

end LineTable

end Polyglot
