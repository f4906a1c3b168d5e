import Polyglot.Proofs.Data.Lines
import Polyglot.Proofs.Data.Spelling

/-!
# The lines of rows

Rows that are joined by line feeds are the lines of the text (`linesOf_joinRows`); if blanks may stand at their
ends, they are the lines without them (`linesOf_joinRows_of_isKept`). None of them has a tab in its
indentation, and a document of them is read from the first one on (`ofText_joinRows`).
-/

namespace Polyglot.Data

open Text Typed

variable {cs ds body : List Char} {s : String} {a : Atom} {r : Row} {rs : List Row} {n : ℕ} {t : Tree}

/-! ## Pieces -/

theorem pieces_of_notMem (h : '\n' ∉ cs) (start : ℕ) (piece : List Char) :
    pieces start piece cs = [(start, piece.reverse ++ cs)] := by
  induction cs generalizing piece with
  | nil => rw [pieces, List.append_nil]
  | cons c cs ih =>
    obtain ⟨hc, hcs⟩ := List.ne_and_not_mem_of_not_mem_cons h
    rw [pieces, if_neg hc.symm, ih hcs, List.reverse_cons, List.append_assoc, List.singleton_append]

theorem pieces_append_feed (h : '\n' ∉ cs) (start : ℕ) (piece ds : List Char) :
    pieces start piece (cs ++ '\n' :: ds) =
      (start, piece.reverse ++ cs) :: pieces (start + (piece.length + cs.length) + 1) [] ds := by
  induction cs generalizing piece with
  | nil => rw [List.nil_append, pieces, if_pos rfl, List.append_nil]; rfl
  | cons c cs ih =>
    obtain ⟨hc, hcs⟩ := List.ne_and_not_mem_of_not_mem_cons h
    have hlen : (c :: piece).length + cs.length = piece.length + (c :: cs).length := by
      rw [List.length_cons, List.length_cons, Nat.add_right_comm, Nat.add_assoc]
    rw [List.cons_append, pieces, if_neg hc.symm, ih hcs, List.reverse_cons, List.append_assoc,
      List.singleton_append, hlen]

/-! ## Rows -/

/-- The octets stay on a line, and nothing in front of them would be taken for its indentation. -/
structure StaysOnLine (cs : List Char) : Prop where
  feed : '\n' ∉ cs
  first : ∀ d, cs.head? = some d → isBlank d = false
  last : cs.getLast? ≠ some '\r'

/-- The octets fit on a line, and nothing at their ends would be taken for their surroundings. -/
structure FitsLine (cs : List Char) : Prop where
  feed : '\n' ∉ cs
  first : ∀ d, cs.head? = some d → isBlank d = false
  last : ∀ d, cs.getLast? = some d → isBlank d = false ∧ d ≠ '\r'

theorem FitsLine.staysOnLine (h : FitsLine cs) : StaysOnLine cs :=
  ⟨h.feed, h.first, fun hlast => (h.last _ hlast).2 rfl⟩

theorem fitsLine_nil : FitsLine [] := ⟨List.not_mem_nil, fun _ h => (nomatch h), fun _ h => (nomatch h)⟩

theorem FitsLine.append (hcs : FitsLine cs) (hds : FitsLine ds) : FitsLine (cs ++ ds) where
  feed hmem := (List.mem_append.1 hmem).elim hcs.feed hds.feed
  first d hd := by
    rw [List.head?_append, Option.or_eq_some_iff] at hd
    exact hd.elim (hcs.first d) fun h => hds.first d h.2
  last d hd := by
    rw [List.getLast?_append, Option.or_eq_some_iff] at hd
    exact hd.elim (hds.last d) fun h => hcs.last d h.2

/-- Words, with a space between them. -/
theorem FitsLine.spaced (hcs : FitsLine cs) (hds : FitsLine ds) (hcs' : cs ≠ []) (hds' : ds ≠ []) :
    FitsLine (cs ++ ' ' :: ds) where
  feed hmem := by
    rcases List.mem_append.1 hmem with hmem | hmem
    · exact hcs.feed hmem
    · exact hds.feed (List.mem_of_ne_of_mem (by decide) hmem)
  first d hd := by
    rw [List.head?_append_of_ne_nil _ hcs'] at hd
    exact hcs.first d hd
  last d hd := by
    obtain ⟨e, ds, rfl⟩ := List.exists_cons_of_ne_nil hds'
    rw [List.getLast?_append_cons, List.getLast?_cons_cons] at hd
    exact hds.last d hd

theorem fitsLine_of_all (h : cs.all (fun d => !isBlank d && d != '\r' && d != '\n') = true) :
    FitsLine cs := by
  have hall : ∀ d ∈ cs, isBlank d = false ∧ d ≠ '\r' ∧ d ≠ '\n' := fun d hd => by
    have hd := List.all_eq_true.1 h d hd
    simp only [Bool.and_eq_true, Bool.not_eq_true', bne_iff_ne] at hd
    exact ⟨hd.1.1, hd.1.2, hd.2⟩
  exact {
    feed := fun hmem => (hall _ hmem).2.2 rfl
    first := fun d hd => (hall d (List.mem_of_mem_head? hd)).1
    last := fun d hd => ⟨(hall d (List.mem_of_getLast? hd)).1, (hall d (List.mem_of_getLast? hd)).2.1⟩ }

theorem feed_notMem_of_isStringBody (h : IsStringBody body) : '\n' ∉ body := by
  induction h with
  | nil => exact List.not_mem_nil
  | @plain c cs hc _ ih =>
    refine List.not_mem_cons_of_ne_of_not_mem ?_ ih
    rintro rfl
    exact hc (by simp)
  | @escape c cs hc _ ih =>
    refine List.not_mem_cons_of_ne_of_not_mem (by decide) (List.not_mem_cons_of_ne_of_not_mem ?_ ih)
    rintro rfl
    simp at hc
  | @code ds cs _ hhex _ ih =>
    refine List.not_mem_cons_of_ne_of_not_mem (by decide)
      (List.not_mem_cons_of_ne_of_not_mem (by decide) fun hmem => ?_)
    rcases List.mem_append.1 hmem with hmem | hmem
    · exact absurd (List.all_eq_true.1 hhex _ hmem) (by decide)
    · exact ih hmem

theorem Atom.SpelledBy.fitsLine (h : a.SpelledBy s) : FitsLine (octets s) := by
  cases h with
  | word hword hvalue =>
    rw [octets_of_isWord hword]
    refine fitsLine_of_all (List.all_eq_true.2 fun d hd => ?_)
    have hd := List.all_eq_true.1 hword.chars d hd
    have hne {e : Char} (he : isWordChar e = false) : d ≠ e := ne_of_apply hd he
    simp [isBlank, hne (e := ' ') (by decide), hne (e := '\t') (by decide),
      hne (e := '\r') (by decide), hne (e := '\n') (by decide)]
  | @quoted body t hbody ht =>
    rw [octets_quoted]
    refine ⟨?_, fun d hd => ?_, fun d hd => ?_⟩
    · simp only [List.mem_cons, List.mem_append, List.not_mem_nil, or_false, not_or]
      refine ⟨by decide, fun hmem => feed_notMem_of_isStringBody hbody ?_, by decide⟩
      simpa using mem_toList_of_mem_octets (by decide) hmem
    · obtain rfl := Option.some.inj hd
      decide
    · rw [← List.cons_append, List.getLast?_append] at hd
      obtain rfl := Option.some.inj hd
      decide

/-- The content of the row fits on a line. -/
def Row.IsLine (r : Row) : Prop := FitsLine (octets r.content)

/-- The content of the row stays on a line, where it may have blanks behind it. -/
def Row.IsKept (r : Row) : Prop := StaysOnLine (octets r.content)

theorem Row.IsLine.isKept (h : r.IsLine) : r.IsKept := h.staysOnLine

/-- The line that a row makes, if it has offset `start`. -/
def Row.line (start : ℕ) (r : Row) : Line :=
  ⟨start, r.indent, octets r.content, start + size r.text⟩

/-- The line that a row makes, if it has offset `start`, without the blanks behind its content. -/
def Row.trimmed (start : ℕ) (r : Row) : Line :=
  ⟨start, r.indent, trimEnd (octets r.content), start + size r.text⟩

/-- The lines that rows make. -/
def linesAt (start : ℕ) : List Row → List Line
  | [] => []
  | r :: rs => r.line start :: linesAt (start + size r.text + 1) rs

/-- The lines that rows make, without the blanks behind their content. -/
def trimmedAt (start : ℕ) : List Row → List Line
  | [] => []
  | r :: rs => r.trimmed start :: trimmedAt (start + size r.text + 1) rs

theorem length_trimmedAt (start : ℕ) (rs : List Row) : (trimmedAt start rs).length = rs.length := by
  induction rs generalizing start with
  | nil => rfl
  | cons r rs ih => rw [trimmedAt, List.length_cons, List.length_cons, ih]

theorem trimEnd_eq_self (h : ∀ d, cs.getLast? = some d → isBlank d = false) : trimEnd cs = cs := by
  rw [trimEnd]
  rcases hcs : cs.reverse with _ | ⟨d, ds⟩
  · rw [List.reverse_eq_nil_iff.1 hcs]
    rfl
  · have hd := h d (by rw [List.getLast?_eq_head?_reverse, hcs]; rfl)
    rw [List.dropWhile_cons_of_neg (by simp [hd]), ← hcs, List.reverse_reverse]

theorem trimEnd_ne_nil (hne : cs ≠ []) (h : ∀ d, cs.head? = some d → isBlank d = false) :
    trimEnd cs ≠ [] := by
  obtain ⟨d, ds, rfl⟩ := List.exists_cons_of_ne_nil hne
  intro hnil
  have hall := List.dropWhile_eq_nil_iff.1 (List.reverse_eq_nil_iff.1 hnil)
  have hblank := h d rfl
  rw [hall d (by simp)] at hblank
  cases hblank

theorem Row.IsLine.trimmed_eq (h : r.IsLine) (start : ℕ) : r.trimmed start = r.line start := by
  rw [Row.trimmed, trimEnd_eq_self fun d hd => (h.last d hd).1, Row.line]

theorem trimmedAt_eq (h : ∀ r ∈ rs, r.IsLine) (start : ℕ) : trimmedAt start rs = linesAt start rs := by
  induction rs generalizing start with
  | nil => rfl
  | cons r rs ih =>
    rw [trimmedAt, linesAt, (h r List.mem_cons_self).trimmed_eq,
      ih fun r hr => h r (List.mem_cons_of_mem _ hr)]

theorem Row.octets_text (r : Row) :
    octets r.text = List.replicate r.indent ' ' ++ octets r.content := by
  have hspace : ∀ d ∈ List.replicate r.indent ' ', IsAsciiOctet d := fun d hd => by
    rw [List.eq_of_mem_replicate hd]
    decide
  rw [Row.text, octets_append, octets_ofList hspace]

theorem Row.IsKept.feed_text (h : r.IsKept) : '\n' ∉ octets r.text := by
  rw [r.octets_text, List.mem_append, not_or]
  exact ⟨fun hmem => absurd (List.eq_of_mem_replicate hmem) (by decide), h.feed⟩

theorem Row.IsKept.takeWhile_blank (h : r.IsKept) :
    (octets r.text).takeWhile isBlank = List.replicate r.indent ' ' := by
  rw [r.octets_text, List.takeWhile_append_of_pos fun d hd => by
    rw [List.eq_of_mem_replicate hd]; rfl]
  rcases hcontent : octets r.content with _ | ⟨d, ds⟩
  · rw [List.takeWhile_nil, List.append_nil]
  · have hd := h.first d (by rw [hcontent]; rfl)
    rw [List.takeWhile_cons_of_neg (by simp [hd]), List.append_nil]

theorem Row.IsKept.ofOctets (h : r.IsKept) (start : ℕ) :
    Line.ofOctets start (octets r.text) = r.trimmed start := by
  have htext := r.octets_text
  have hreturn : (octets r.text).getLast? ≠ some '\r' := by
    rw [htext, List.getLast?_append]
    rcases hcontent : (octets r.content).getLast? with _ | d
    · rw [Option.none_or, List.getLast?_replicate]
      split_ifs <;> simp
    · rw [Option.some_or, ← hcontent]
      exact h.last
  have hcontent : (octets r.text).drop r.indent = octets r.content := by
    rw [htext, List.drop_left' List.length_replicate]
  rw [Line.ofOctets, if_neg hreturn, h.takeWhile_blank, List.length_replicate, hcontent,
    length_octets, Row.trimmed]

theorem Row.IsKept.tabError? (h : r.IsKept) (start : ℕ) : tabError? (start, octets r.text) = none := by
  have hnone : ¬ (List.replicate r.indent ' ').contains '\t' = true := by
    rw [List.contains_iff_mem]
    exact fun hmem => absurd (List.eq_of_mem_replicate hmem) (by decide)
  rw [Data.tabError?]
  dsimp only
  rw [h.takeWhile_blank, if_neg hnone, ite_self]

/-! ## Joined rows -/

/-- The pieces of joined rows. -/
def piecesAt (start : ℕ) : List Row → List (ℕ × List Char)
  | [] => []
  | r :: rs => (start, octets r.text) :: piecesAt (start + size r.text + 1) rs

theorem pieces_joinRows (h : ∀ r ∈ rs, r.IsKept) (hne : rs ≠ []) (start : ℕ) :
    pieces start [] (octets (joinRows rs)) = piecesAt start rs := by
  induction rs generalizing start with
  | nil => exact absurd rfl hne
  | cons r rs ih =>
    have hr := (h r List.mem_cons_self).feed_text
    rcases rs with _ | ⟨r', rs⟩
    · rw [joinRows, List.isEmpty_nil, if_pos rfl, String.append_empty, pieces_of_notMem hr]
      rfl
    · rw [joinRows, List.isEmpty_cons, if_neg Bool.false_ne_true, octets_append, octets_append]
      show pieces start [] (octets r.text ++ '\n' :: octets (joinRows (r' :: rs))) = _
      rw [pieces_append_feed hr, ih (fun r hr => h r (List.mem_cons_of_mem _ hr))
        (List.cons_ne_nil _ _), List.length_nil, Nat.zero_add, length_octets]
      rfl

theorem map_piecesAt (h : ∀ r ∈ rs, r.IsKept) (start : ℕ) :
    (piecesAt start rs).map (fun p => Line.ofOctets p.1 p.2) = trimmedAt start rs := by
  induction rs generalizing start with
  | nil => rfl
  | cons r rs ih =>
    rw [piecesAt, List.map_cons, (h r List.mem_cons_self).ofOctets,
      ih fun r hr => h r (List.mem_cons_of_mem _ hr), trimmedAt]

theorem filterMap_piecesAt (h : ∀ r ∈ rs, r.IsKept) (start : ℕ) :
    (piecesAt start rs).filterMap tabError? = [] := by
  induction rs generalizing start with
  | nil => rfl
  | cons r rs ih =>
    rw [piecesAt, List.filterMap_cons_none ((h r List.mem_cons_self).tabError? start),
      ih fun r hr => h r (List.mem_cons_of_mem _ hr)]

theorem joinRows_append (hrs : rs ≠ []) (r : Row) (rs' : List Row) :
    joinRows (rs ++ r :: rs') = joinRows rs ++ "\n" ++ joinRows (r :: rs') := by
  induction rs with
  | nil => exact absurd rfl hrs
  | cons r₀ rs ih =>
    rcases rs with _ | ⟨r₁, rs⟩
    · simp [joinRows, String.append_assoc]
    · have hmore := ih (List.cons_ne_nil _ _)
      rw [List.cons_append, joinRows, joinRows, hmore]
      simp [String.append_assoc]

/-- A row without content. -/
def Row.blank : Row := ⟨0, ""⟩

/-- Blank rows behind the others are line feeds. -/
theorem joinRows_append_blank (hrs : rs ≠ []) (n : ℕ) :
    joinRows (rs ++ List.replicate n Row.blank) =
      joinRows rs ++ String.ofList (List.replicate n '\n') := by
  induction n with
  | zero => simp
  | succ n ih =>
    have hne : rs ++ List.replicate n Row.blank ≠ [] := List.append_ne_nil_of_left_ne_nil hrs _
    have hblank : joinRows [Row.blank] = "" := rfl
    rw [List.replicate_succ', ← List.append_assoc, joinRows_append hne, ih, hblank,
      String.append_empty, List.replicate_succ', String.ofList_append, String.append_assoc]

/-- **Rows.** Joined rows are the lines of the text. -/
theorem linesOf_joinRows_of_isKept (h : ∀ r ∈ rs, r.IsKept) (hne : rs ≠ []) :
    linesOf (joinRows rs) = trimmedAt 0 rs := by
  rw [linesOf, pieces_joinRows h hne, map_piecesAt h]

theorem linesOf_joinRows (h : ∀ r ∈ rs, r.IsLine) (hne : rs ≠ []) :
    linesOf (joinRows rs) = linesAt 0 rs := by
  rw [linesOf_joinRows_of_isKept (fun r hr => (h r hr).isKept) hne, trimmedAt_eq h]

theorem tabErrors_joinRows (h : ∀ r ∈ rs, r.IsKept) (hne : rs ≠ []) :
    tabErrors (joinRows rs) = [] := by
  rw [tabErrors, pieces_joinRows h hne, filterMap_piecesAt h]

/-- **Documents of rows.** The root begins on the first row; without errors in it, and with blank rows only
behind it, the document has none. -/
theorem ofText_joinRows_of_isKept (h : ∀ x ∈ r :: rs, x.IsKept)
    (hfirst : (r.trimmed 0).isBlank = false)
    (ht : block (joinRows (r :: rs)) (r.trimmed 0) (trimmedAt (size r.text + 1) rs) =
      .ok ⟨t, n, []⟩)
    (hrest : ∀ l ∈ (trimmedAt (size r.text + 1) rs).drop n, l.isBlank = true) :
    Document.ofText (joinRows (r :: rs)) = .ok ⟨some t, []⟩ := by
  have hstray : strayErrors ((trimmedAt (size r.text + 1) rs).drop n) = [] := by
    rw [strayErrors, List.filter_eq_nil_iff.2 fun l hl => by simp [hrest l hl], List.map_nil]
  have hlines : (linesOf (joinRows (r :: rs))).dropWhile Line.isBlank =
      r.trimmed 0 :: trimmedAt (size r.text + 1) rs := by
    rw [linesOf_joinRows_of_isKept h (List.cons_ne_nil _ _), trimmedAt, Nat.zero_add,
      List.dropWhile_cons_of_neg (by simp [hfirst])]
  unfold Document.ofText
  rw [hlines]
  simp only [ht, tabErrors_joinRows h (List.cons_ne_nil _ _), bind, Except.bind, pure, Except.pure,
    hstray, List.append_nil]

theorem ofText_joinRows (h : ∀ x ∈ r :: rs, x.IsLine) (hfirst : (r.line 0).isBlank = false)
    (ht : block (joinRows (r :: rs)) (r.line 0) (linesAt (size r.text + 1) rs) = .ok ⟨t, n, []⟩)
    (hrest : ∀ l ∈ (linesAt (size r.text + 1) rs).drop n, l.isBlank = true) :
    Document.ofText (joinRows (r :: rs)) = .ok ⟨some t, []⟩ := by
  obtain ⟨hr, hrs⟩ := List.forall_mem_cons.1 h
  rw [← hr.trimmed_eq] at hfirst ht
  rw [← trimmedAt_eq hrs] at ht hrest
  exact ofText_joinRows_of_isKept (fun x hx => (h x hx).isKept) hfirst ht hrest

end Polyglot.Data
