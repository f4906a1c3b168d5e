import Polyglot.Proofs.Data.Scan

/-!
# Lines of a text

The lines that the block reader works on lie in the text one behind the other, and every place of
theirs that it uses is a boundary (`linesFrom_linesOf`). Lines stay so when some are dropped, and
when the content of one moves to the right over blanks.
-/

namespace Polyglot.Data

open Text

variable {s : String} {i j k start : ℕ} {cs : List Char} {l : Line} {ls : List Line}

/-! ## Places of a line -/

/-- The line lies in the text: its content and its break stand between characters, and so does every
column of its indentation. -/
structure Line.Lies (s : String) (l : Line) : Prop where
  content : Stretch s l.contentStart l.content
  indent : ∀ k ≤ l.indent, isBoundary s (l.start + k) = true
  breakStart : isBoundary s l.breakStart = true
  contentEnd_le : l.contentEnd ≤ l.breakStart

theorem Line.Lies.start_le (h : l.Lies s) : l.start ≤ l.breakStart := by
  have := h.contentEnd_le
  simp only [contentEnd, contentStart] at this
  omega

theorem Line.Lies.fits_content (h : l.Lies s) : l.contentSpan.Fits s :=
  ⟨Nat.le_add_right _ _, h.content.start, h.content.stop⟩

theorem isSeam_of_le_blanks (h : k ≤ blanks cs) : IsSeam cs k := by
  rcases k with _ | k
  · exact .start
  · have hlt : k < (cs.takeWhile isBlank).length := h
    have hprefix := List.takeWhile_prefix isBlank (l := cs)
    have hget : cs[k]? = some ((cs.takeWhile isBlank)[k]) := by
      rw [← List.prefix_iff_getElem?.1 hprefix k hlt]
    exact .after hget
      (isAsciiOctet_of_isBlank (List.mem_takeWhile_imp (List.getElem_mem hlt)))

theorem isPrefix_trimEnd (cs : List Char) : trimEnd cs <+: cs := by
  obtain ⟨t, ht, -⟩ := exists_eq_trimmed_append isBlank cs
  exact ⟨t, ht.symm⟩

/-- The content moves to the right over ASCII octets. -/
theorem Line.Lies.advance (h : l.Lies s) (hk : ∀ j ≤ k, IsSeam l.content j) :
    (l.advance k).Lies s where
  content := by
    have hle := (hk k le_rfl).le_length
    show Stretch s (l.start + (l.indent + k)) (l.content.drop k)
    rw [← Nat.add_assoc]
    exact h.content.drop (h.content.isBoundary (hk k le_rfl)) hle
  indent j hj := by
    have hj : j ≤ l.indent + k := hj
    rcases Nat.le_total j l.indent with hle | hle
    · exact h.indent j hle
    · have := h.content.isBoundary (hk (j - l.indent) (by omega))
      rwa [contentStart, Nat.add_assoc, Nat.add_sub_cancel' hle] at this
  breakStart := h.breakStart
  contentEnd_le := by
    have hle := (hk k le_rfl).le_length
    have := h.contentEnd_le
    simp only [contentEnd, contentStart, Line.advance, List.length_drop] at this ⊢
    omega

/-- A line that stands between boundaries, its break left out. -/
theorem lies_of_stretch (h : Stretch s start cs) :
    (⟨start, blanks cs, trimEnd (cs.drop (blanks cs)), start + cs.length⟩ : Line).Lies s := by
  have hblanks : blanks cs ≤ cs.length := isSeam_blanks.le_length
  have hrest : Stretch s (start + blanks cs) (cs.drop (blanks cs)) :=
    h.drop (h.isBoundary isSeam_blanks) hblanks
  have hle := (isPrefix_trimEnd (cs.drop (blanks cs))).length_le
  refine ⟨?_, fun k hk => h.isBoundary (isSeam_of_le_blanks hk), h.stop, ?_⟩
  · rw [List.prefix_iff_eq_take.1 (isPrefix_trimEnd (cs.drop (blanks cs)))]
    refine hrest.take (hrest.isBoundary ?_) hle
    have hseam : IsSeam (cs.drop (blanks cs)) _ := isSeam_trimEnd .stop
    rwa [List.take_length] at hseam
  · rw [List.length_drop] at hle
    show start + blanks cs + (trimEnd (cs.drop (blanks cs))).length ≤ start + cs.length
    omega

theorem lies_ofOctets (h : Stretch s start cs) : (Line.ofOctets start cs).Lies s := by
  unfold Line.ofOctets
  dsimp only
  split_ifs with hlast
  · obtain ⟨t, rfl⟩ := List.getLast?_eq_some_iff.1 hlast
    rw [List.dropLast_concat]
    have hget : (t ++ ['\r'])[t.length]? = some '\r' := List.getElem?_concat_length
    have htake := h.take (h.isBoundary (.before hget (by decide))) (by simp)
    rw [List.take_left] at htake
    exact lies_of_stretch htake
  · exact lies_of_stretch h

/-! ## Lists of lines -/

/-- The lines lie in the text one behind the other, from offset `i` on. -/
def LinesFrom (s : String) : ℕ → List Line → Prop
  | _, [] => True
  | i, l :: ls => i ≤ l.start ∧ l.Lies s ∧ LinesFrom s l.breakStart ls

theorem LinesFrom.of_le (h : LinesFrom s i ls) (hij : j ≤ i) : LinesFrom s j ls := by
  cases ls with
  | nil => trivial
  | cons l ls => exact ⟨hij.trans h.1, h.2⟩

theorem LinesFrom.tail (h : LinesFrom s i (l :: ls)) : LinesFrom s i ls :=
  h.2.2.of_le (h.1.trans h.2.1.start_le)

theorem LinesFrom.drop (h : LinesFrom s i ls) (k : ℕ) : LinesFrom s i (ls.drop k) := by
  induction ls generalizing k with
  | nil => rwa [List.drop_nil]
  | cons l ls ih =>
    cases k with
    | zero => exact h
    | succ k => exact ih h.tail k

theorem LinesFrom.lies (h : LinesFrom s i ls) (hl : l ∈ ls) : l.Lies s := by
  induction ls generalizing i with
  | nil => exact absurd hl List.not_mem_nil
  | cons m ls ih =>
    rcases List.mem_cons.1 hl with rfl | hl
    · exact h.2.1
    · exact ih h.2.2 hl

/-- The pieces of a text between line feeds lie in it one behind the other. -/
def PiecesFrom (s : String) : ℕ → List (ℕ × List Char) → Prop
  | _, [] => True
  | i, p :: ps => i ≤ p.1 ∧ Stretch s p.1 p.2 ∧ PiecesFrom s (p.1 + p.2.length) ps

theorem piecesFrom_pieces {piece : List Char} (h : Stretch s start (piece.reverse ++ cs))
    (hi : i ≤ start) : PiecesFrom s i (pieces start piece cs) := by
  induction cs generalizing i start piece with
  | nil =>
    rw [List.append_nil] at h
    exact ⟨hi, h, trivial⟩
  | cons c cs ih =>
    unfold pieces
    split_ifs with hc
    · have hlen : piece.reverse.length = piece.length := List.length_reverse
      have hget : (piece.reverse ++ c :: cs)[piece.reverse.length]? = some c := by simp
      have hfeed : IsAsciiOctet c := hc ▸ by decide
      have hline := h.take (h.isBoundary (.before hget hfeed)) (by simp)
      have hnext := h.drop (h.isBoundary (.after hget hfeed)) (by simp)
      rw [List.take_left] at hline
      rw [← List.drop_drop, List.drop_left, hlen, ← Nat.add_assoc] at hnext
      exact ⟨hi, hline, ih hnext (by rw [hlen]; omega)⟩
    · refine ih ?_ hi
      rw [List.reverse_cons, List.append_assoc]
      exact h

theorem linesFrom_map {ps : List (ℕ × List Char)} (h : PiecesFrom s i ps) :
    LinesFrom s i (ps.map fun p => .ofOctets p.1 p.2) := by
  induction ps generalizing i with
  | nil => trivial
  | cons p ps ih =>
    have hle : (Line.ofOctets p.1 p.2).breakStart ≤ p.1 + p.2.length := by
      unfold Line.ofOctets
      dsimp only
      split_ifs
      · rw [List.length_dropLast]; omega
      · exact le_rfl
    exact ⟨h.1, lies_ofOctets h.2.1, (ih h.2.2).of_le hle⟩

/-- **Lines.** The lines of a text lie in it one behind the other. -/
theorem linesFrom_linesOf (s : String) : LinesFrom s 0 (linesOf s) :=
  linesFrom_map (piecesFrom_pieces (stretch_octets s) le_rfl)

/-! ## Tabs -/

theorem PiecesFrom.stretch {ps : List (ℕ × List Char)} {p : ℕ × List Char}
    (h : PiecesFrom s i ps) (hp : p ∈ ps) : Stretch s p.1 p.2 := by
  induction ps generalizing i with
  | nil => exact absurd hp List.not_mem_nil
  | cons q ps ih =>
    rcases List.mem_cons.1 hp with rfl | hp
    · exact h.2.1
    · exact ih h.2.2 hp

theorem getElem?_takeWhile_ne {d : Char} (h : d ∈ cs) :
    cs[(cs.takeWhile (· != d)).length]? = some d := by
  induction cs with
  | nil => exact absurd h List.not_mem_nil
  | cons c cs ih =>
    by_cases hc : c = d
    · simp [hc]
    · rw [List.takeWhile_cons_of_pos (by simpa using hc), List.length_cons, List.getElem?_cons_succ]
      exact ih ((List.mem_cons.1 h).resolve_left fun h => hc h.symm)

/-- The tab that an error is about stands in the indentation. -/
theorem tabErrors_fit (s : String) : ∀ e ∈ tabErrors s, e.span.Fits s := by
  intro e he
  obtain ⟨p, hp, he⟩ := List.mem_filterMap.1 he
  have h := (piecesFrom_pieces (stretch_octets s) le_rfl).stretch hp
  unfold tabError? at he
  dsimp only at he
  split_ifs at he with hblank htab
  obtain rfl := Option.some.inj he
  have hget := getElem?_takeWhile_ne (List.contains_iff_mem.1 htab)
  have hget : p.2[((p.2.takeWhile isBlank).takeWhile (· != '\t')).length]? = some '\t' := by
    obtain ⟨hlt, htab⟩ := List.getElem?_eq_some_iff.1 hget
    rw [List.prefix_iff_getElem?.1 (List.takeWhile_prefix isBlank) _ hlt, htab]
  exact Span.fits_withLength (h.isBoundary (.before hget (by decide)))
    (by rw [Nat.add_assoc]; exact h.isBoundary (.after hget (by decide)))

end Polyglot.Data
