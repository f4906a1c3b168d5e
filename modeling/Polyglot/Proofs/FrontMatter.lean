import Polyglot.Proofs.Text.Octet
import Polyglot.FrontMatter

/-!
# Fences

The fences that `scan` finds split the document (`scan_opened`, `scan_closed`). Blanked, they are
three spaces each, and all around them stays as it was (`blankFences_opened`, `blankFences_closed`).
-/

namespace Polyglot

open Text

namespace FrontMatter

variable {s block : String} {start stop i : ℕ} {content : Span}

/-! ## Where the fences are -/

theorem beginsFence_iff {cs : List Char} (h : beginsFence cs = true) :
    ∃ rest, cs = ['-', '-', '-'] ++ rest := by
  unfold beginsFence at h
  split at h
  · exact ⟨_, rfl⟩
  · exact absurd h Bool.false_ne_true

theorem closingFence?_split {cs : List Char} (h : closingFence? cs i = some stop) :
    ∃ inner rest, cs = inner ++ ['\n', '-', '-', '-'] ++ rest ∧
      stop = i + inner.length + 1 + fenceLength := by
  induction cs generalizing i with
  | nil => cases h
  | cons c cs ih =>
    rw [closingFence?] at h
    split_ifs at h with hc
    · rw [Bool.and_eq_true, decide_eq_true_eq] at hc
      obtain ⟨rfl, hfence⟩ := hc
      obtain ⟨rest, rfl⟩ := beginsFence_iff hfence
      exact ⟨[], rest, rfl, (Option.some.inj h).symm⟩
    · obtain ⟨inner, rest, rfl, rfl⟩ := ih h
      refine ⟨c :: inner, rest, rfl, ?_⟩
      rw [List.length_cons]
      omega

/-- A document with a fence is split by it. -/
theorem scan_split (h : beginsFence ((octets s).drop i) = true) :
    ∃ a b, s = a ++ "---" ++ b ∧ size a = i ∧
      octets b = ((octets s).drop i).drop fenceLength := by
  obtain ⟨rest, hrest⟩ := beginsFence_iff h
  have hlt : i < (octets s).length := by
    by_contra hle
    rw [List.drop_eq_nil_of_le (Nat.le_of_not_lt hle)] at hrest
    cases hrest
  have hoctets : octets s = (octets s).take i ++ ['-', '-', '-'] ++ rest := by
    rw [List.append_assoc, ← hrest, List.take_append_drop]
  obtain ⟨a, b, hs, ha, hb⟩ :=
    exists_split_of_octets hoctets (List.cons_ne_nil _ _) (by simp [IsAsciiOctet])
  refine ⟨a, b, hs, ?_, ?_⟩
  · rw [← length_octets, ha, List.length_take, Nat.min_eq_left hlt.le]
  · rw [hb, hrest]
    rfl

theorem scan_opened (h : scan s = .opened start) :
    ∃ a inner, s = a ++ "---" ++ inner ∧ size a = start := by
  simp only [scan] at h
  split_ifs at h with hfence
  split at h
  · cases h
  · obtain rfl : leadingWhite s = start := by injection h
    obtain ⟨a, inner, hs, ha, -⟩ := scan_split hfence
    exact ⟨a, inner, hs, ha⟩

theorem scan_closed (h : scan s = .closed start stop) :
    ∃ a inner b, s = a ++ "---" ++ inner ++ "\n" ++ "---" ++ b ∧ size a = start ∧
      size (a ++ "---" ++ inner ++ "\n" ++ "---") = stop := by
  simp only [scan] at h
  split_ifs at h with hfence
  split at h
  · next stop' hclosing =>
    obtain ⟨rfl, rfl⟩ : leadingWhite s = start ∧ stop' = stop := by
      injection h with h1 h2
      exact ⟨h1, h2⟩
    obtain ⟨a, b, hs, ha, hb⟩ := scan_split hfence
    obtain ⟨xs, ys, hsplit, hstop⟩ := closingFence?_split hclosing
    rw [← hb] at hsplit
    obtain ⟨inner, z, rfl, hinner, -⟩ :=
      exists_split_of_octets hsplit (List.cons_ne_nil _ _) (by simp [IsAsciiOctet])
    refine ⟨a, inner, z, ?_, ha, ?_⟩
    · rw [hs]
      simp only [String.append_assoc]
      rfl
    · rw [size_append, size_append, size_append, size_append, ha, hstop, ← hinner, length_octets]
      rfl
  · cases h

/-! ## Blanked fences -/

theorem isFenceByte_opened :
    (opened start).isFenceByte i = true ↔ start ≤ i ∧ i < start + fenceLength :=
  Span.containsByte_iff

theorem isFenceByte_closed : (closed start stop).isFenceByte i = true ↔
    (start ≤ i ∧ i < start + fenceLength) ∨ (stop - fenceLength ≤ i ∧ i < stop) := by
  rw [isFenceByte, Bool.or_eq_true, Span.containsByte_iff, Span.containsByte_iff]
  exact Iff.rfl

/-- Bytes with a space for each one of a fence. -/
def blanked (isFence : ℕ → Bool) (bs : List UInt8) : List UInt8 :=
  bs.mapIdx fun i b => if isFence i then 0x20 else b

theorem blanked_append (isFence : ℕ → Bool) (bs cs : List UInt8) :
    blanked isFence (bs ++ cs) =
      blanked isFence bs ++ blanked (fun i => isFence (i + bs.length)) cs := by
  unfold blanked
  exact List.mapIdx_append

theorem blanked_eq_self {isFence : ℕ → Bool} {bs : List UInt8}
    (h : ∀ i < bs.length, ¬ isFence i = true) : blanked isFence bs = bs := by
  unfold blanked
  refine List.ext_getElem List.length_mapIdx fun i hi hi' => ?_
  rw [List.getElem_mapIdx, if_neg (h i hi')]

theorem blanked_fence {isFence : ℕ → Bool} (h : ∀ i < fenceLength, isFence i = true) :
    blanked isFence (bytes "---") = bytes "   " := by
  have hdashes : bytes "---" = [0x2d, 0x2d, 0x2d] := by decide +kernel
  have hspaces : bytes "   " = [0x20, 0x20, 0x20] := by decide +kernel
  have h0 := h 0 (by decide)
  have h1 := h 1 (by decide)
  have h2 := h 2 (by decide)
  rw [hdashes, hspaces]
  simp [blanked, h0, h1, h2]

/-- The first fence among bytes is blanked, and nothing before it. -/
theorem blanked_split {isFence : ℕ → Bool} {a : String} (rest : List UInt8)
    (hbefore : ∀ i < size a, ¬ isFence i = true)
    (hfence : ∀ i < fenceLength, isFence (i + size a) = true) :
    blanked isFence (bytes (a ++ "---") ++ rest) =
      bytes (a ++ "   ") ++ blanked (fun i => isFence (i + size (a ++ "---"))) rest := by
  have hself : blanked isFence (bytes a) = bytes a := blanked_eq_self hbefore
  rw [blanked_append, bytes_append, blanked_append, hself, length_bytes, blanked_fence hfence,
    ← bytes_append, ← bytes_append, length_bytes]

/-- Only the bytes of the fences are blanked. -/
theorem blankFences_eq {f : FrontMatter} {t : String}
    (hspan : f.span? (size s) = some ⟨start, stop⟩) (hstop : stop ≤ size s)
    (hstart : start + fenceLength ≤ stop)
    (hbytes : blanked f.isFenceByte ((bytes s).take stop) = bytes t) :
    f.blankFences s = some t := by
  rw [blankFences, hspan, Option.bind_some, if_pos ⟨hstop, hstart⟩, ← ofBytes?_bytes, ← hbytes,
    blanked]

theorem bytes_of_ofBytes? {bs : List UInt8} (h : ofBytes? bs = some block) : bytes block = bs := by
  unfold ofBytes? String.fromUTF8? at h
  split_ifs at h
  obtain rfl := Option.some.inj h
  rfl

/-- The block is the document up to its end, with a space for each byte of a fence. -/
theorem bytes_of_blankFences {f : FrontMatter} (h : f.blankFences s = some block) :
    ∃ r, f.span? (size s) = some r ∧ r.start + fenceLength ≤ r.stop ∧ r.stop = size block ∧
      size block ≤ size s ∧ bytes block = blanked f.isFenceByte ((bytes s).take (size block)) := by
  unfold blankFences at h
  obtain ⟨r, hr, h⟩ := Option.bind_eq_some_iff.1 h
  split_ifs at h with hstop
  have hbytes := bytes_of_ofBytes? h
  have hsize : r.stop = size block := by
    have hlength := congrArg List.length hbytes
    rw [List.length_mapIdx, List.length_take, length_bytes, length_bytes] at hlength
    omega
  rw [hsize] at hbytes hstop
  exact ⟨r, hr, hsize ▸ hstop.2, hsize, hstop.1, hbytes⟩

theorem size_fence (a : String) : size (a ++ "---") = size a + fenceLength := size_append a "---"

theorem size_blanked (a : String) : size (a ++ "   ") = size (a ++ "---") := by
  rw [size_append, size_append]
  rfl

theorem blankFences_opened (a inner : String) :
    (opened (size a)).blankFences (a ++ "---" ++ inner) = some (a ++ "   " ++ inner) := by
  have hsize : size (a ++ "---" ++ inner) = size a + fenceLength + size inner := by
    rw [size_append, size_fence]
  have hall : (bytes (a ++ "---" ++ inner)).take (size (a ++ "---" ++ inner)) =
      bytes (a ++ "---") ++ bytes inner := by
    rw [← bytes_append]
    exact List.take_length
  refine blankFences_eq rfl le_rfl (by omega) ?_
  rw [hall, blanked_split, blanked_eq_self, bytes_append _ inner]
  all_goals
    intro i _
    rw [isFenceByte_opened]
    try rw [size_fence]
    omega

theorem blankFences_closed (a inner b : String) :
    (closed (size a) (size (a ++ "---" ++ inner ++ "---"))).blankFences
      (a ++ "---" ++ inner ++ "---" ++ b) = some (a ++ "   " ++ inner ++ "   ") := by
  have hsize : size (a ++ "---" ++ inner ++ "---") =
      size a + fenceLength + size inner + fenceLength := by
    rw [size_fence, size_append, size_fence]
  have hinner : blanked (fun i =>
      (closed (size a) (size (a ++ "---" ++ inner ++ "---"))).isFenceByte (i + size (a ++ "---")))
      (bytes (inner ++ "---") ++ []) = bytes (inner ++ "   ") := by
    rw [blanked_split, blanked, List.mapIdx_nil, List.append_nil]
    all_goals
      intro i _
      rw [isFenceByte_closed, hsize, size_fence]
      omega
  have hall : (bytes (a ++ "---" ++ inner ++ "---" ++ b)).take
      (size (a ++ "---" ++ inner ++ "---")) =
      bytes (a ++ "---") ++ (bytes (inner ++ "---") ++ []) := by
    rw [← bytes_left, List.append_nil, ← bytes_append, String.append_assoc]
  refine blankFences_eq rfl (by rw [size_append _ b]; omega) (by omega) ?_
  rw [hall, blanked_split, hinner, ← bytes_append, ← String.append_assoc]
  all_goals
    intro i _
    rw [isFenceByte_closed, hsize]
    omega

/-! ## The content -/

theorem contentSpan?_opened (a inner : String) :
    (opened (size a)).contentSpan? (size (a ++ "   " ++ inner)) =
      some ⟨size (a ++ "   "), size (a ++ "   " ++ inner)⟩ := by
  have hle : size (a ++ "   ") ≤ size (a ++ "   " ++ inner) := by
    rw [size_append _ inner]
    exact Nat.le_add_right _ _
  rw [contentSpan?, ← size_fence, ← size_blanked, Nat.min_eq_left hle]

theorem contentSpan?_closed (a inner : String) (n : ℕ) :
    (closed (size a) (size (a ++ "---" ++ inner ++ "---"))).contentSpan? n =
      some ⟨size (a ++ "   "), size (a ++ "   " ++ inner)⟩ := by
  rw [contentSpan?, size_fence (a ++ "---" ++ inner), Nat.add_sub_cancel, ← size_fence,
    ← size_blanked, size_append _ inner, size_append _ inner, size_blanked]

/-- Front matter that is found has a block, and a content in it. -/
theorem exists_content (h : scan s ≠ absent) :
    ∃ block content, (scan s).blankFences s = some block ∧
      (scan s).contentSpan? (size block) = some content := by
  rcases hf : scan s with _ | start | ⟨start, stop⟩
  · exact absurd hf h
  · obtain ⟨a, inner, rfl, rfl⟩ := scan_opened hf
    exact ⟨_, _, blankFences_opened a inner, contentSpan?_opened a inner⟩
  · obtain ⟨a, inner, b, rfl, rfl, rfl⟩ := scan_closed hf
    have hassoc : a ++ "---" ++ inner ++ "\n" = a ++ "---" ++ (inner ++ "\n") :=
      String.append_assoc
    rw [hassoc]
    exact ⟨_, _, blankFences_closed a (inner ++ "\n") b, contentSpan?_closed a (inner ++ "\n") _⟩

/-- The block with its fences ends where its text ends, within the document. -/
theorem exists_span? {block : String} (h : (scan s).blankFences s = some block) :
    ∃ r, (scan s).span? (size s) = some r ∧ r.start ≤ r.stop ∧ r.stop = size block ∧
      size block ≤ size s := by
  obtain ⟨r, hr, hstart, hstop, hsize, -⟩ := bytes_of_blankFences h
  exact ⟨r, hr, by omega, hstop, hsize⟩

end FrontMatter

end Polyglot
