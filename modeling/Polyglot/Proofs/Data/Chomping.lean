import Polyglot.Proofs.Data.Entry

/-!
# Block scalars

The lines of a block scalar are joined, folded or not, and the line feeds at the end are settled as its header
says. The line feed that ends the last line of a text has another empty line behind it, and that one is
counted as well: it shows where all empty lines are kept (`Document.ofText_blockScalar`).
-/

namespace Polyglot.Data

open Text

variable {s t : String} {ls : List String} {cs : List Char} {indent : Option ℕ} {i k n start stop : ℕ}
  {rest : List Line}

/-! ## Texts in lines -/

/-- A line of the text: it is empty, or begins with no blank, and no part of a line break is in it or ends
it. -/
structure IsTextLine (t : String) : Prop where
  feed : '\n' ∉ t.toList
  first : ∀ c, t.toList.head? = some c → isBlank c = false
  last : t.toList.getLast? ≠ some '\r'

/-- The lines of the text, of which the first and the last one are not empty. -/
structure AreTextLines (ls : List String) : Prop where
  lines : ∀ t ∈ ls, IsTextLine t
  ne_nil : ls ≠ []
  first : ls.head? ≠ some ""
  last : ls.getLast? ≠ some ""

instance (t : String) : Decidable (IsTextLine t) :=
  decidable_of_iff ('\n' ∉ t.toList ∧ t.toList.head?.all (fun c => !isBlank c) = true ∧
      t.toList.getLast? ≠ some '\r')
    ⟨fun ⟨hfeed, hfirst, hlast⟩ => ⟨hfeed, fun c hc => by simpa [hc] using hfirst, hlast⟩,
      fun ⟨hfeed, hfirst, hlast⟩ => ⟨hfeed, by simpa [Option.all_eq_true] using hfirst, hlast⟩⟩

instance (ls : List String) : Decidable (AreTextLines ls) :=
  decidable_of_iff ((∀ t ∈ ls, IsTextLine t) ∧ ls ≠ [] ∧ ls.head? ≠ some "" ∧ ls.getLast? ≠ some "")
    ⟨fun ⟨hlines, hne, hfirst, hlast⟩ => ⟨hlines, hne, hfirst, hlast⟩,
      fun ⟨hlines, hne, hfirst, hlast⟩ => ⟨hlines, hne, hfirst, hlast⟩⟩

theorem IsTextLine.staysOnLine (h : IsTextLine t) : StaysOnLine (octets t) where
  feed hmem := h.feed (mem_toList_of_mem_octets (by decide) hmem)
  first d hd := by
    by_contra hblank
    rw [Bool.not_eq_false] at hblank
    rw [h.first d (head?_toList_of_octets (isAsciiOctet_of_isBlank hblank) hd)] at hblank
    cases hblank
  last hlast := h.last (getLast?_toList_of_octets (by decide) hlast)

/-- A block scalar under `key`: the header, the lines indented by two, the empty ones left empty, and `k` empty
lines, each with its line feed. -/
def blockDocument (header : String) (ls : List String) (k : ℕ) : String :=
  String.join ((("key: " ++ header) :: ls.map (fun t => if t = "" then "" else "  " ++ t) ++
    List.replicate k "").map (· ++ "\n"))

def textRow (t : String) : Row := if t = "" then .blank else ⟨2, t⟩

theorem text_textRow (t : String) : (textRow t).text = if t = "" then "" else "  " ++ t := by
  unfold textRow
  split_ifs <;> rfl

theorem joinRows_append_blank_eq_join {rs : List Row} (h : rs ≠ []) :
    joinRows (rs ++ [.blank]) = String.join (rs.map fun r => r.text ++ "\n") := by
  induction rs with
  | nil => exact absurd rfl h
  | cons r rs ih =>
    rcases rs with _ | ⟨r', rs⟩
    · rfl
    · rw [List.map_cons, String.join_cons, ← ih (List.cons_ne_nil _ _), List.cons_append, joinRows,
        List.cons_append, List.isEmpty_cons, if_neg Bool.false_ne_true, String.append_assoc]

/-- The rows behind the header, the one behind the last line feed included. -/
def rowsBelow (ls : List String) (k : ℕ) : List Row := ls.map textRow ++ List.replicate (k + 1) .blank

theorem blockDocument_eq (header : String) (ls : List String) (k : ℕ) :
    blockDocument header ls k = joinRows (.entry "key" header :: rowsBelow ls k) := by
  have hrows : Row.entry "key" header :: rowsBelow ls k =
      (.entry "key" header :: ls.map textRow ++ List.replicate k .blank) ++ [.blank] := by
    rw [rowsBelow, List.replicate_succ', List.cons_append, List.cons_append, List.append_assoc]
  have hentry : (Row.entry "key" header).text = "key: " ++ header := by
    rw [text_entry, ← String.append_assoc]
    rfl
  have hblank : Row.blank.text = "" := rfl
  rw [hrows, joinRows_append_blank_eq_join (by simp), blockDocument]
  simp only [List.map_append, List.map_cons, List.map_map, List.map_replicate, Function.comp_def,
    text_textRow, hentry, hblank]

theorem AreTextLines.isKept (h : AreTextLines ls) (k : ℕ) : ∀ r ∈ rowsBelow ls k, r.IsKept := by
  refine List.forall_mem_append.2 ⟨List.forall_mem_map.2 fun t ht => ?_, fun r hr => ?_⟩
  · unfold textRow
    split_ifs
    · exact fitsLine_nil.staysOnLine
    · exact (h.lines t ht).staysOnLine
  · rw [List.eq_of_mem_replicate hr]
    exact fitsLine_nil.staysOnLine

/-! ## Taking the lines -/

theorem blockText_blank (indent : Option ℕ) (k n start stop : ℕ) :
    blockText s 0 indent k stop (trimmedAt start (List.replicate n .blank)) =
      .ok ⟨[], k + n, stop, n⟩ := by
  induction n generalizing k start with
  | zero => rfl
  | succ n ih =>
    rw [List.replicate_succ, trimmedAt, blockText, if_pos (show (Row.blank.trimmed start).isEmpty = true
      from rfl), ih, Nat.add_right_comm]
    rfl

/-- The piece of a line that is not empty stands behind its indentation. -/
theorem tokenText_textRow (ht : t ≠ "") (h : Stretch s start (octets (textRow t).text)) :
    tokenText s ⟨start + 2, start + size (textRow t).text⟩ = .ok t := by
  rw [text_textRow, if_neg ht] at h ⊢
  have hspan : (⟨start + 2, start + size ("  " ++ t)⟩ : Span) = .withLength (start + 2) (size t) := by
    rw [size_append, ← Nat.add_assoc]
    rfl
  have hslice : (Span.withLength (start + 2) (size t)).slice? s = some t := h.right.slice?
  rw [tokenText, hspan, hslice]

theorem blockText_cons_empty {rs : List Row} {b : BlockText}
    (hmore : blockText s 0 indent (k + 1) stop (trimmedAt (start + 1) rs) = .ok b) :
    blockText s 0 indent k stop (trimmedAt start (textRow "" :: rs)) =
      .ok { b with used := b.used + 1 } := by
  have hempty : ((textRow "").trimmed start).isEmpty = true := rfl
  rw [trimmedAt, blockText, if_pos hempty]
  show (do
    let more ← blockText s 0 indent (k + 1) stop (trimmedAt (start + 1) rs)
    _) = _
  rw [hmore]
  rfl

/-- A line that is not empty is taken; the empty ones before it stand between it and the text so far. -/
theorem blockText_cons_text {rs : List Row} {b : BlockText} (ht : t ≠ "") (hline : IsTextLine t)
    (hindent : indent.getD 2 = 2) (h : Stretch s start (octets (textRow t).text))
    (hmore : blockText s 0 (some 2) 0 (start + size (textRow t).text)
      (trimmedAt (start + size (textRow t).text + 1) rs) = .ok b) :
    blockText s 0 indent k stop (trimmedAt start (textRow t :: rs)) =
      .ok { b with pieces := List.replicate k "" ++ t :: b.pieces, used := b.used + 1 } := by
  have hrow : textRow t = ⟨2, t⟩ := if_neg ht
  have hne : octets t ≠ [] := octets_ne_nil ht
  have hempty : ¬ ((textRow t).trimmed start).isEmpty = true := by
    rw [hrow, Line.isEmpty, List.isEmpty_iff]
    exact trimEnd_ne_nil hne hline.staysOnLine.first
  have hcolumn : indent.getD ((textRow t).trimmed start).indent = 2 := by
    rw [hrow]
    exact hindent
  have hin : ¬ (decide (((textRow t).trimmed start).indent ≤ 0) ||
      decide (((textRow t).trimmed start).indent < 2)) = true := by
    rw [hrow]
    exact Bool.false_ne_true
  rw [trimmedAt, blockText, if_neg hempty]
  simp only [hcolumn]
  rw [if_neg hin]
  show (do
    let piece ← tokenText s ⟨start + 2, start + size (textRow t).text⟩
    _) = _
  rw [tokenText_textRow ht h]
  show (do
    let more ← blockText s 0 (some 2) 0 (start + size (textRow t).text) _
    _) = _
  rw [hmore]
  rfl

/-- **Lines of a block.** The lines are taken, the empty ones behind the last are counted. -/
theorem blockText_rows (hlines : ∀ t ∈ ls, IsTextLine t) (hne : ls ≠ []) (hlast : ls.getLast? ≠ some "")
    (hindent : indent.getD 2 = 2)
    (h : PiecesFrom s i (piecesAt start (ls.map textRow ++ List.replicate n .blank))) :
    ∃ stop', blockText s 0 indent k stop
        (trimmedAt start (ls.map textRow ++ List.replicate n .blank)) =
      .ok ⟨List.replicate k "" ++ ls, n, stop', ls.length + n⟩ := by
  induction ls generalizing i indent k start stop with
  | nil => exact absurd rfl hne
  | cons t ts ih =>
    obtain ⟨ht, hts⟩ := List.forall_mem_cons.1 hlines
    obtain ⟨-, hstretch, hrest⟩ := h
    rcases ts with _ | ⟨t', ts⟩
    · have hne : t ≠ "" := fun heq => hlast (congrArg some heq)
      have hmore := blockText_blank (s := s) (some 2) 0 n (start + size (textRow t).text + 1)
        (start + size (textRow t).text)
      rw [Nat.zero_add] at hmore
      rw [List.length_singleton, Nat.add_comm 1]
      exact ⟨_, blockText_cons_text hne ht hindent hstretch hmore⟩
    · rw [List.getLast?_cons_cons] at hlast
      have hlength : (t :: t' :: ts).length + n = (t' :: ts).length + n + 1 := by
        rw [List.length_cons, Nat.add_right_comm]
      rw [hlength]
      by_cases hempty : t = ""
      · subst hempty
        obtain ⟨stop', hmore⟩ := @ih indent _ (k + 1) _ stop hts (List.cons_ne_nil _ _) hlast hindent
          hrest
        rw [List.replicate_succ', List.append_assoc, List.singleton_append] at hmore
        exact ⟨stop', blockText_cons_empty hmore⟩
      · obtain ⟨stop', hmore⟩ := ih (k := 0) hts
          (List.cons_ne_nil _ _) hlast (rfl : (some 2).getD 2 = 2) hrest
        exact ⟨stop', blockText_cons_text hempty ht hindent hstretch hmore⟩

/-! ## Joining the lines -/

/-- The lines behind a text, after `gap` empty ones: a space joins neighbours, and a run of empty lines becomes
as many line feeds. -/
def foldAfter (gap : ℕ) : List String → String
  | [] => ""
  | t :: ts =>
    if t = "" then foldAfter (gap + 1) ts
    else (if gap = 0 then " " else String.ofList (List.replicate gap '\n')) ++ t ++ foldAfter 0 ts

def foldLines : List String → String
  | [] => ""
  | t :: ts => t ++ foldAfter 0 ts

/-- The text of a block scalar without the line feeds at its end. -/
def blockBody (folded : Bool) (ls : List String) : String :=
  if folded then foldLines ls else "\n".intercalate ls

theorem joinFolded_cons_empty (afterText : Bool) (ls : List String) :
    joinFolded afterText ("" :: ls) = '\n' :: joinFolded false ls := rfl

theorem joinFolded_cons_text (ht : t ≠ "") (afterText : Bool) (ls : List String) :
    joinFolded afterText (t :: ls) =
      (if afterText then [' '] else []) ++ t.toList ++ joinFolded true ls := by
  rw [joinFolded, if_neg fun hempty => ht (String.isEmpty_iff.1 hempty)]

theorem toList_foldAfter (hne : ls ≠ []) (hlast : ls.getLast? ≠ some "") (gap : ℕ) :
    (foldAfter gap ls).toList = List.replicate gap '\n' ++ joinFolded (gap == 0) ls := by
  induction ls generalizing gap with
  | nil => exact absurd rfl hne
  | cons t ts ih =>
    by_cases ht : t = ""
    · subst ht
      rcases ts with _ | ⟨t', ts⟩
      · exact absurd rfl hlast
      · rw [List.getLast?_cons_cons] at hlast
        rw [foldAfter, if_pos rfl, joinFolded_cons_empty, ih (List.cons_ne_nil _ _) hlast,
          List.replicate_succ', List.append_assoc]
        rfl
    · have hrest : (foldAfter 0 ts).toList = joinFolded true ts := by
        rcases ts with _ | ⟨t', ts⟩
        · rfl
        · rw [List.getLast?_cons_cons] at hlast
          exact ih (List.cons_ne_nil _ _) hlast 0
      rw [foldAfter, if_neg ht, joinFolded_cons_text ht, String.toList_append, String.toList_append,
        hrest]
      rcases gap with _ | gap
      · rfl
      · simp

theorem AreTextLines.joinFolded (h : AreTextLines ls) : joinFolded false ls = (foldLines ls).toList := by
  obtain ⟨t, ts, rfl⟩ := List.exists_cons_of_ne_nil h.ne_nil
  have ht : t ≠ "" := fun heq => h.first (congrArg some heq)
  rw [foldLines, joinFolded_cons_text ht, String.toList_append]
  rcases ts with _ | ⟨t', ts⟩
  · rfl
  · have hlast := h.last
    rw [List.getLast?_cons_cons] at hlast
    rw [toList_foldAfter (List.cons_ne_nil _ _) hlast]
    rfl

theorem joinLiteral_eq (hne : ls ≠ []) : joinLiteral ls = ("\n".intercalate ls).toList ++ ['\n'] := by
  induction ls with
  | nil => exact absurd rfl hne
  | cons t ts ih =>
    rcases ts with _ | ⟨t', ts⟩
    · rw [String.intercalate_singleton]
      exact List.flatMap_singleton ..
    · rw [joinLiteral, List.flatMap_cons, ← joinLiteral, ih (List.cons_ne_nil _ _),
        String.intercalate_cons_cons, String.toList_append, String.toList_append]
      simp only [List.append_assoc]
      rfl

theorem exists_joinFolded_append (ht : t ≠ "") (afterText : Bool) (ls : List String) :
    ∃ front, Data.joinFolded afterText (ls ++ [t]) = front ++ t.toList := by
  induction ls generalizing afterText with
  | nil =>
    rw [List.nil_append, joinFolded_cons_text ht, joinFolded, List.append_nil]
    exact ⟨_, rfl⟩
  | cons t' ts ih =>
    rw [List.cons_append, Data.joinFolded]
    split_ifs
    · obtain ⟨front, h⟩ := ih false
      exact ⟨'\n' :: front, by rw [h]; rfl⟩
    all_goals
      obtain ⟨front, h⟩ := ih true
      rw [h, ← List.append_assoc]
      exact ⟨_, rfl⟩

/-- The text ends with its last line, so not with a line feed. -/
theorem AreTextLines.getLast? (h : AreTextLines ls) (folded : Bool) :
    ∃ c, (blockBody folded ls).toList.getLast? = some c ∧ c ≠ '\n' := by
  obtain ⟨init, t, hinit⟩ : ∃ init t, ls = init ++ [t] :=
    ⟨_, _, (List.dropLast_append_getLast h.ne_nil).symm⟩
  have ht : t ≠ "" := by
    rintro rfl
    exact h.last (by rw [hinit, List.getLast?_concat])
  have hfront : ∃ front, (blockBody folded ls).toList = front ++ t.toList := by
    cases folded with
    | false =>
      show ∃ front, ("\n".intercalate ls).toList = front ++ t.toList
      rcases init with _ | ⟨t', ts⟩
      · rw [hinit, List.nil_append, String.intercalate_singleton]
        exact ⟨[], rfl⟩
      · rw [hinit, String.intercalate_append_of_ne_nil (List.cons_ne_nil _ _) (List.cons_ne_nil _ _),
          String.intercalate_singleton, String.toList_append]
        exact ⟨_, rfl⟩
    | true =>
      show ∃ front, (foldLines ls).toList = front ++ t.toList
      rw [← h.joinFolded, hinit]
      exact exists_joinFolded_append ht false init
  obtain ⟨front, hfront⟩ := hfront
  have hne : t.toList ≠ [] := fun hnil => ht (String.toList_eq_nil_iff.1 hnil)
  refine ⟨t.toList.getLast hne, ?_, fun hfeed => ?_⟩
  · rw [hfront, List.getLast?_append, List.getLast?_eq_some_getLast hne, Option.some_or]
  · exact (h.lines t (by rw [hinit]; simp)).feed (hfeed ▸ List.getLast_mem hne)

/-! ## Chomping -/

/-- How many line feeds end a text that `n` empty lines follow. -/
def Chomping.feeds : Chomping → ℕ → ℕ
  | .strip, _ => 0
  | .clip, _ => 1
  | .keep, n => n + 1

theorem Chomping.apply_feed (c : Chomping) (h : ∃ d, cs.getLast? = some d ∧ d ≠ '\n') (n : ℕ) :
    c.apply n (cs ++ ['\n']) = cs ++ List.replicate (c.feeds n) '\n' := by
  obtain ⟨d, hd, hne⟩ := h
  obtain ⟨ds, rfl⟩ := List.getLast?_eq_some_iff.1 hd
  have hstripped : (((ds ++ [d]) ++ ['\n']).reverse.dropWhile (· == '\n')).reverse = ds ++ [d] := by
    rw [List.reverse_append, List.reverse_append, List.reverse_singleton, List.reverse_singleton,
      List.singleton_append, List.singleton_append, List.dropWhile_cons_of_pos rfl,
      List.dropWhile_cons_of_neg (by simpa using hne), List.reverse_cons, List.reverse_reverse]
  unfold Chomping.apply
  rw [hstripped]
  cases c with
  | strip => exact (List.append_nil _).symm
  | clip =>
    have hfull : (ds ++ [d]).isEmpty = false := by simp
    dsimp only
    rw [hfull]
    rfl
  | keep => rw [List.append_assoc, feeds, List.replicate_succ]; rfl

def Chomping.mark : Chomping → String
  | .clip => ""
  | .strip => "-"
  | .keep => "+"

def blockHeader (folded : Bool) (c : Chomping) : String := (if folded then ">" else "|") ++ c.mark

theorem ofHeader_eq (header : String) : Chomping.ofHeader header =
    if '-' ∈ header.toList then .strip else if '+' ∈ header.toList then .keep else .clip := by
  simp only [Chomping.ofHeader, String.contains_char_eq, decide_eq_true_eq]

theorem plainLength_blockHeader (folded : Bool) (c : Chomping) :
    plainLength (octets (blockHeader folded c)) = size (blockHeader folded c) := by
  cases folded <;> cases c <;> decide

theorem ofHeader_blockHeader (folded : Bool) (c : Chomping) :
    Chomping.ofHeader (blockHeader folded c) = c := by
  rw [ofHeader_eq]
  cases folded <;> cases c <;> rfl

theorem head?_blockHeader (folded : Bool) (c : Chomping) :
    (octets (blockHeader folded c)).head? = some (if folded then '>' else '|') := by
  cases folded <;> cases c <;> rfl

/-- The pieces as the header says, with their line feeds, are the text with one line feed behind it. -/
theorem AreTextLines.joined (h : AreTextLines ls) (folded : Bool) (c : Chomping) :
    (if (octets (blockHeader folded c)).head? = some '>' then
      Data.joinFolded false ls ++ (if ls.isEmpty then [] else ['\n']) else joinLiteral ls) =
      (blockBody folded ls).toList ++ ['\n'] := by
  rw [head?_blockHeader]
  cases folded with
  | false => exact joinLiteral_eq h.ne_nil
  | true =>
    have hne : ls.isEmpty = false := List.isEmpty_eq_false_iff.2 h.ne_nil
    rw [if_pos rfl, if_pos rfl, hne, h.joinFolded]
    rfl

theorem fitsLine_blockHeader (folded : Bool) (c : Chomping) :
    FitsLine (octets (blockHeader folded c)) := by
  refine fitsLine_of_all ?_
  cases folded <;> cases c <;> decide

theorem blockScalar_rows {j : ℕ} (h : AreTextLines ls) (folded : Bool) (c : Chomping)
    (hstretch : Stretch s start (octets (blockHeader folded c)))
    (hi : start + (octets (blockHeader folded c)).length ≤ i)
    (hlines : LinesFrom s i (trimmedAt j (rowsBelow ls k)))
    (hpieces : PiecesFrom s n (piecesAt j (rowsBelow ls k))) :
    ∃ x, blockScalar s start (octets (blockHeader folded c)) 0 (trimmedAt j (rowsBelow ls k)) =
        .ok ⟨x, ls.length + (k + 1), []⟩ ∧
      x.value = .text (blockBody folded ls ++ String.ofList (List.replicate (c.feeds (k + 1)) '\n')) := by
  -- That it is read is known; what it reads to is put together from its parts.
  obtain ⟨t, -, ht, -, -⟩ := blockScalar_both 0 hstretch hi hlines
  have hread := ht
  unfold blockScalar at ht
  rw [plainLength_blockHeader] at ht
  obtain ⟨header, hheader, ht⟩ := exists_of_bind_eq_ok ht
  rw [tokenText, hstretch.slice?] at hheader
  obtain rfl := Except.ok.inj hheader
  obtain ⟨block, hblock, ht⟩ := exists_of_bind_eq_ok ht
  have hrows := @blockText_rows s ls none n 0 (k + 1) j
    (Span.withLength start (size (blockHeader folded c))).stop h.lines h.ne_nil h.last rfl hpieces
  obtain ⟨stop, hrows⟩ := hrows
  obtain rfl := Except.ok.inj (hrows.symm.trans hblock)
  obtain ⟨source, -, ht⟩ := exists_of_bind_eq_ok ht
  obtain rfl := Except.ok.inj ht
  refine ⟨_, hread, ?_⟩
  simp only [List.replicate_zero, List.nil_append, h.joined, ofHeader_blockHeader,
    Chomping.apply_feed c (h.getLast? folded), String.ofList_append, String.ofList_toList]

/-! ## Documents -/

theorem begins_blockHeader (folded : Bool) (c : Chomping) :
    (octets (blockHeader folded c)).head? = some '|' ∨ (octets (blockHeader folded c)).head? = some '>' := by
  rw [head?_blockHeader]
  cases folded
  · exact .inl rfl
  · exact .inr rfl

/-- Content that begins like a header is read as a block scalar. -/
theorem inlineValue_of_blockScalar {parentIndent : ℕ} {x : Scalar}
    (h : cs.head? = some '|' ∨ cs.head? = some '>')
    (hx : blockScalar s start cs parentIndent rest = .ok ⟨x, n, []⟩) :
    inlineValue s start cs parentIndent rest = .ok ⟨.scalar x, n, []⟩ := by
  have hne {d : Char} (hliteral : d ≠ '|') (hfolded : d ≠ '>') : cs.head? ≠ some d := by
    rcases h with h | h <;> rw [h]
    · exact fun heq => hliteral (Option.some.inj heq).symm
    · exact fun heq => hfolded (Option.some.inj heq).symm
  rw [inlineValue_eq, if_neg (not_or.2 ⟨hne (by decide) (by decide), hne (by decide) (by decide)⟩),
    if_neg (not_or.2 ⟨hne (by decide) (by decide), hne (by decide) (by decide)⟩), if_pos h, hx]
  rfl

/-- A block scalar is read from its lines; the line behind the last line feed is one of the empty ones. -/
theorem exists_ofText_blockDocument (h : AreTextLines ls) (folded : Bool) (c : Chomping) (k : ℕ) :
    ∃ d x, Document.ofText (blockDocument (blockHeader folded c) ls k) = .ok d ∧ d.IsPair "key" x ∧
      x.value = .text (blockBody folded ls ++ String.ofList (List.replicate (c.feeds (k + 1)) '\n')) := by
  have hkey : IsPlainKey "key" := ⟨⟨by decide, by decide, by decide⟩, by decide⟩
  have hbegins := begins_blockHeader folded c
  have hcontent : (octets (blockHeader folded c)).head?.any beginsContent = true := by
    rcases hbegins with hbegins | hbegins <;> rw [hbegins] <;> rfl
  have hfits := fitsLine_blockHeader folded c
  rw [blockDocument_eq]
  set r := Row.entry "key" (blockHeader folded c) with hr
  set s := joinRows (r :: rowsBelow ls k)
  have hall : ∀ x ∈ r :: rowsBelow ls k, x.IsKept :=
    List.forall_mem_cons.2 ⟨(isLine_entry hkey hfits hcontent).isKept, h.isKept k⟩
  have hstretch : Stretch s 5 (octets (blockHeader folded c)) := by
    have hwhole : Stretch s 0 (octets (r.text ++ _)) := stretch_octets s
    rw [hr, text_entry] at hwhole
    exact hwhole.left.right.right
  have hlines := linesFrom_linesOf s
  rw [linesOf_joinRows_of_isKept hall (List.cons_ne_nil _ _)] at hlines
  obtain ⟨-, -, hlines⟩ := hlines
  have hwhole : Stretch s 0 ([].reverse ++ octets s) := stretch_octets s
  have hpieces := piecesFrom_pieces hwhole le_rfl
  rw [pieces_joinRows hall (List.cons_ne_nil _ _)] at hpieces
  obtain ⟨-, -, hpieces⟩ := hpieces
  have hend : 5 + (octets (blockHeader folded c)).length ≤ (r.trimmed 0).breakStart := by
    rw [Row.trimmed, hr, text_entry, length_octets, size_append, size_append, ← Nat.add_assoc,
      ← Nat.add_assoc]
    exact le_rfl
  obtain ⟨x, hx, hvalue⟩ := blockScalar_rows h folded c hstretch hend hlines hpieces
  have hinline := inlineValue_of_blockScalar hbegins hx
  rw [Nat.zero_add] at hinline
  have hused : (trimmedAt (size r.text + 1) (rowsBelow ls k)).drop (ls.length + (k + 1)) = [] := by
    refine List.drop_eq_nil_of_le ?_
    rw [length_trimmedAt, rowsBelow, List.length_append, List.length_map, List.length_replicate]
  obtain ⟨d, hd, hpair⟩ := ofText_entry hkey hfits hcontent (h.isKept k) hinline
    (hused ▸ fun l hl => absurd hl List.not_mem_nil)
  exact ⟨d, x, hd, hpair, hvalue⟩

theorem Chomping.feeds_succ_eq_iff (c : Chomping) (k : ℕ) : c.feeds (k + 1) = c.feeds k ↔ c ≠ .keep := by
  cases c <;> simp [feeds]

/-- **Block scalars.** A document of one block scalar has the pair, without errors, and its text is that of the
lines, with the line feeds for one empty line more than it has. So exactly where the header does not keep
them, the line feeds are those that it announces. -/
theorem Document.ofText_blockScalar (h : AreTextLines ls) (folded : Bool) (c : Chomping) (k : ℕ) :
    ∃ d x, Document.ofText (blockDocument (blockHeader folded c) ls k) = .ok d ∧ d.IsPair "key" x ∧
      x.value = .text (blockBody folded ls ++ String.ofList (List.replicate (c.feeds (k + 1)) '\n')) ∧
      (x.value = .text (blockBody folded ls ++ String.ofList (List.replicate (c.feeds k) '\n')) ↔
        c ≠ .keep) := by
  obtain ⟨d, x, hd, hpair, hvalue⟩ := exists_ofText_blockDocument h folded c k
  refine ⟨d, x, hd, hpair, hvalue, ?_⟩
  rw [hvalue, Value.text.injEq, String.append_right_inj, String.ofList_inj, ← c.feeds_succ_eq_iff k]
  exact ⟨fun heq => by simpa using congrArg List.length heq, fun heq => by rw [heq]⟩

/-- Blanks at the end of a line, empty lines, and lines that look like structure. -/
def unevenLines : List String := ["a  ", "", "", "- b: #", "c"]

theorem Document.ofText_blockScalar_unevenLines : AreTextLines unevenLines ∧ ∃ d x,
    Document.ofText "key: >+\n  a  \n\n\n  - b: #\n  c\n\n" = .ok d ∧ d.IsPair "key" x ∧
      x.value = .text "a  \n\n- b: # c\n\n\n" := by
  have hlines : AreTextLines unevenLines := by decide
  have htext : blockDocument (blockHeader true .keep) unevenLines 1 =
      "key: >+\n  a  \n\n\n  - b: #\n  c\n\n" := by decide
  have hbody : blockBody true unevenLines ++ String.ofList (List.replicate 3 '\n') =
      "a  \n\n- b: # c\n\n\n" := by decide
  obtain ⟨d, x, hd, hpair, hvalue, -⟩ := ofText_blockScalar hlines true .keep 1
  exact ⟨hlines, d, x, htext ▸ hd, hpair, hbody ▸ hvalue⟩

/-- The one line feed of the text is kept twice. -/
theorem Document.not_ofText_blockScalar_keep : AreTextLines ["a"] ∧ ¬ ∃ d x,
    Document.ofText "key: |+\n  a\n" = .ok d ∧ d.IsPair "key" x ∧ x.value = .text "a\n" := by
  have hlines : AreTextLines ["a"] := by decide
  refine ⟨hlines, ?_⟩
  rintro ⟨d, x, hd, ⟨span, key, hroot, -⟩, hvalue⟩
  have htext : blockDocument (blockHeader false .keep) ["a"] 0 = "key: |+\n  a\n" := by decide
  obtain ⟨e, y, he, ⟨span', key', hroot', -⟩, hvalue'⟩ :=
    exists_ofText_blockDocument hlines false .keep 0
  rw [htext, hd] at he
  obtain rfl := Except.ok.inj he
  rw [hroot] at hroot'
  cases hroot'
  rw [hvalue] at hvalue'
  exact absurd (Value.text.inj hvalue') (by decide)

end Polyglot.Data
