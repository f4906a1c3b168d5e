import Polyglot.Proofs.Data.Member

/-!
# Documents of one entry

A word in front of a colon is a key, and what stands behind the blank is its value. A document that begins
with one, and whose other lines all belong to the value, has the one entry and no errors, if the value has
none (`ofText_entry`).
-/

namespace Polyglot.Data

open Text

variable {s key u : String} {ds : List Char} {l : Line} {rest : List Line} {y : Tree} {n : ℕ}
  {rs : List Row}

/-! ## Plain keys -/

/-- The key is a word that is read as a text. -/
structure IsPlainKey (key : String) : Prop where
  word : IsWord key.toList
  text : Value.ofPlain key = .text key

theorem IsPlainKey.fitsLine (h : IsPlainKey key) : FitsLine (octets key) :=
  (Atom.SpelledBy.word (a := .text key) h.word h.text).fitsLine

theorem IsPlainKey.exists_cons (h : IsPlainKey key) : ∃ d ds, octets key = d :: ds ∧
    isWordChar d = true ∧ ds.all isWordChar = true := by
  obtain ⟨d, ds, hds⟩ := List.exists_cons_of_ne_nil h.word.ne_nil
  have hchars := h.word.chars
  rw [hds, List.all_cons, Bool.and_eq_true] at hchars
  exact ⟨d, ds, by rw [octets_of_isWord h.word, hds], hchars⟩

/-- A word ends at the first colon with a blank behind it. -/
theorem beforeSeparator?_word_append (hds : ds.all isWordChar = true) (previous : Option Char)
    (cs : List Char) : beforeSeparator? previous (ds ++ ':' :: ' ' :: cs) = some ds.length := by
  induction ds generalizing previous with
  | nil =>
    rw [List.nil_append, beforeSeparator?, if_neg (by simp), beginsSeparator_cons]
    rfl
  | cons d ds ih =>
    rw [List.all_cons, Bool.and_eq_true] at hds
    have hhash : d ≠ '#' := ne_of_apply hds.1 (by decide)
    have hcolon : d ≠ ':' := ne_of_apply hds.1 (by decide)
    have hnot : beginsSeparator (d :: (ds ++ ':' :: ' ' :: cs)) = false := by
      simp [beginsSeparator_cons, hcolon]
    rw [List.cons_append, beforeSeparator?, if_neg fun hand => hhash hand.1, hnot,
      if_neg Bool.false_ne_true, ih hds.2]
    rfl

/-! ## Entries -/

/-- A line with a plain key, its colon, and `u` behind a space. -/
structure Line.IsEntry (s : String) (l : Line) (key u : String) : Prop where
  lies : l.Lies s
  plain : IsPlainKey key
  content : l.content = octets (key ++ (": " ++ u))

namespace Line.IsEntry

theorem content_eq (h : l.IsEntry s key u) :
    l.content = octets key ++ ':' :: ' ' :: octets u := by
  rw [h.content, octets_append, octets_append]
  rfl

/-- The line begins with a word, and a colon is right behind it. -/
theorem exists_cons (h : l.IsEntry s key u) : ∃ d ds, l.content = d :: ds ∧ isWordChar d = true ∧
    ds.head?.all Data.isBlank = false := by
  obtain ⟨d, ds, hkey, hd, hds⟩ := h.plain.exists_cons
  refine ⟨d, ds ++ ':' :: ' ' :: octets u, by rw [h.content_eq, hkey]; rfl, hd, ?_⟩
  rcases ds with _ | ⟨e, ds⟩
  · rfl
  · rw [List.all_cons, Bool.and_eq_true] at hds
    show Data.isBlank e = false
    simp [Data.isBlank, ne_of_apply hds.1 (e := ' ') (by decide),
      ne_of_apply hds.1 (e := '\t') (by decide)]

theorem isBlank (h : l.IsEntry s key u) : l.isBlank = false := by
  obtain ⟨d, ds, hl, hd, -⟩ := h.exists_cons
  have hhash : d ≠ '#' := ne_of_apply hd (by decide)
  rw [Line.isBlank, hl]
  simpa using hhash

theorem isItem (h : l.IsEntry s key u) : l.isItem = false := by
  obtain ⟨d, ds, hl, -, hds⟩ := h.exists_cons
  rw [Line.isItem_eq, hl, List.tail_cons, hds, Bool.and_false]

theorem findKey? (h : l.IsEntry s key u) :
    findKey? l.content = some ⟨size key, size key + 1⟩ := by
  have hoctets := octets_of_isWord h.plain.word
  have hsep := beforeSeparator?_word_append h.plain.word.chars none (octets u)
  have htrim := trimEnd_word h.plain.word.chars
  obtain ⟨d, ds, hkey, hd, -⟩ := h.plain.exists_cons
  have hne {e : Char} (he : isWordChar e = false) : d ≠ e := ne_of_apply hd he
  rw [← hoctets] at hsep htrim
  rw [h.content_eq, hkey, List.cons_append, findKey_cons, if_neg, if_neg, ← List.cons_append, ← hkey,
    hsep, Option.map_some, List.take_left, htrim, length_octets]
  · simp [hne (e := '"') (by decide), hne (e := '\'') (by decide)]
  · simp [hne (e := '[') (by decide), hne (e := '\x7b') (by decide), hne (e := '#') (by decide)]

theorem stretch (h : l.IsEntry s key u) : Stretch s l.contentStart (octets (key ++ (": " ++ u))) :=
  h.content ▸ h.lies.content

theorem blockKey (h : l.IsEntry s key u) :
    ∃ x, blockKey s l.contentStart (l.content.take (size key)) = .ok ⟨x, size key, []⟩ ∧
      x.value = .text key := by
  have htake : l.content.take (size key) = octets key := by
    rw [h.content_eq, ← length_octets, List.take_left]
  obtain ⟨d, ds, hkey, hd, -⟩ := h.plain.exists_cons
  have hquote : ¬ (octets key).head?.any (fun q => q == '"' || q == '\'') = true := by
    rw [hkey]
    simp [ne_of_apply hd (e := '"') (by decide), ne_of_apply hd (e := '\'') (by decide)]
  refine ⟨⟨.ofPlain key, .plain, .withLength l.contentStart (size key), key⟩, ?_, h.plain.text⟩
  rw [htake, Data.blockKey, if_neg hquote, length_octets]
  simp only [bind, Except.bind, pure, Except.pure, plainScalar, tokenText, h.stretch.left.slice?]

/-- **Entries.** With blank lines only behind its value, an entry is a mapping of one pair. -/
theorem block (h : l.IsEntry s key u) (hu : (octets u).head?.any beginsContent = true)
    (hvalue : inlineValue s (l.contentStart + (size key + 2)) (octets u) l.indent rest =
      .ok ⟨y, n, []⟩)
    (hrest : ∀ m ∈ rest.drop n, m.isBlank = true) :
    ∃ span x m, block s l rest = .ok ⟨.mapping false span [(x, y)], m, []⟩ ∧
      x.value = .text key ∧ ∀ l ∈ rest.drop m, l.isBlank = true := by
  obtain ⟨x, hx, hkey⟩ := h.blockKey
  obtain ⟨more, hmore, -⟩ := blockPairs_of_ends (s := s) [x.key] (ends_of_blank hrest l.indent)
  have hcolon : l.content.drop (size key + 1) = ' ' :: octets u := by
    rw [h.content_eq, ← List.drop_drop, ← length_octets, List.drop_left]
    rfl
  have hdrop : l.content.drop (size key + 2) = octets u := by
    rw [← Nat.add_assoc (size key) 1 1, ← List.drop_drop, hcolon]
    rfl
  have hpairs := blockPairs_cons (n := n) h.isItem h.isBlank h.findKey? hx (List.not_mem_nil) (by
    dsimp only
    rw [hcolon, blanks_cons_of_beginsContent hu, hdrop, isUsedUp_of_beginsContent hu,
      if_neg Bool.false_ne_true, hvalue]) hmore
  obtain ⟨span, m, hm, hblock⟩ := block_of_pairs h.isItem h.isBlank (by rw [h.findKey?]; rfl) hpairs
  refine ⟨span, x, m, hblock, hkey, fun l' hl' => hrest l' ?_⟩
  have hle : n ≤ m := by omega
  rw [← Nat.add_sub_cancel' hle, ← List.drop_drop] at hl'
  exact List.mem_of_mem_drop hl'

end Line.IsEntry

/-- The document is a pair of a text and a scalar, without errors. -/
def Document.IsPair (d : Document) (key : String) (x : Scalar) : Prop :=
  ∃ span k, d = ⟨some (.mapping false span [(k, .scalar x)]), []⟩ ∧ k.value = .text key

/-- The row of an entry. -/
def Row.entry (key u : String) : Row := ⟨0, key ++ (": " ++ u)⟩

theorem text_entry (key u : String) : (Row.entry key u).text = key ++ (": " ++ u) := String.empty_append

theorem isLine_entry (hkey : IsPlainKey key) (hfits : FitsLine (octets u))
    (hu : (octets u).head?.any beginsContent = true) : (Row.entry key u).IsLine := by
  have hcolon : FitsLine (octets (key ++ ":")) := by
    rw [octets_append]
    exact hkey.fitsLine.append (fitsLine_of_all (by decide))
  have hne : octets (key ++ ":") ≠ [] := by
    rw [octets_append]
    exact List.append_ne_nil_of_right_ne_nil _ (List.cons_ne_nil _ _)
  have hspaced := hcolon.spaced hfits hne (ne_nil_of_any_head? hu)
  rw [octets_append, List.append_assoc] at hspaced
  rw [Row.IsLine, Row.entry, octets_append, octets_append]
  exact hspaced

/-- **Documents of one entry.** -/
theorem ofText_entry {x : Scalar} (hkey : IsPlainKey key) (hfits : FitsLine (octets u))
    (hu : (octets u).head?.any beginsContent = true) (hrs : ∀ r ∈ rs, r.IsKept)
    (hvalue : inlineValue (joinRows (.entry key u :: rs)) (size key + 2) (octets u) 0
      (trimmedAt (size (Row.entry key u).text + 1) rs) = .ok ⟨.scalar x, n, []⟩)
    (hrest : ∀ l ∈ (trimmedAt (size (Row.entry key u).text + 1) rs).drop n, l.isBlank = true) :
    ∃ d, Document.ofText (joinRows (.entry key u :: rs)) = .ok d ∧ d.IsPair key x := by
  have hline := isLine_entry hkey hfits hu
  have hall : ∀ r ∈ Row.entry key u :: rs, r.IsKept := List.forall_mem_cons.2 ⟨hline.isKept, hrs⟩
  have hlines := linesFrom_linesOf (joinRows (.entry key u :: rs))
  rw [linesOf_joinRows_of_isKept hall (List.cons_ne_nil _ _), trimmedAt, hline.trimmed_eq] at hlines
  have hentry : Line.IsEntry (joinRows (.entry key u :: rs)) ((Row.entry key u).line 0) key u :=
    ⟨hlines.2.1, hkey, rfl⟩
  have hstart : ((Row.entry key u).line 0).contentStart + (size key + 2) = size key + 2 :=
    Nat.zero_add _
  obtain ⟨span, k, m, hblock, hk, hblank⟩ := hentry.block hu (by rw [hstart]; exact hvalue) hrest
  refine ⟨_, ofText_joinRows_of_isKept hall ?_ ?_ hblank, span, k, rfl, hk⟩
  · rw [hline.trimmed_eq]
    exact hentry.isBlank
  · rw [hline.trimmed_eq]
    exact hblock

end Polyglot.Data
