import Polyglot.Proofs.Projection.Lines
import Polyglot.Session.Snapshot

/-!
# Edits in bytes

An editor's places count shown lines and whole characters; the line table counts lines that end at feeds,
and bytes. In a text that breaks its lines at feeds only both find the same place (`offset_eq`), so an edit
of characters is one of bytes, and so is a list of them (`Snapshot.edit_eq_foldlM`).
-/

namespace Polyglot

open Text DataLiteral

variable {s : String} {c : Char} {cs ds line : List Char} {i j k n : ℕ}

/-! ## Edits of bytes -/

/-- The text `s` with `t` in place of the bytes of a span; none if the span cuts a character. -/
def Span.replace? (r : Span) (s t : String) : Option String :=
  ofBytes? ((bytes s).take r.start ++ bytes t ++ (bytes s).drop r.stop)

/-- The offset of a place in the line table of `s`. -/
def Place.offset (p : Place) (s : String) : ℕ := (LineTable.ofText s).offset16 s p.line p.column

/-- The bytes of a range of `s`; none if it ends before it starts. -/
def Range16.span (r : Range16) (s : String) : Span :=
  ⟨r.start.offset s, max (r.start.offset s) (r.stop.offset s)⟩

/-- The text after a change whose range is read in bytes. -/
def Change.applyBytes? (s : String) (c : Change) : Option String :=
  match c.range with
  | none => some c.text
  | some r => (r.span s).replace? s c.text

/-- Nothing but line feeds ends a line. -/
def BreaksAtFeeds (cs : List Char) : Prop := ∀ c ∈ cs, isBreak c = true → c = '\n'

instance : DecidablePred BreaksAtFeeds := fun cs =>
  decidable_of_iff (cs.all (fun c => !isBreak c || c == '\n') = true) (by
    simp [BreaksAtFeeds, or_iff_not_imp_left])

theorem BreaksAtFeeds.append (h : BreaksAtFeeds cs) (h' : BreaksAtFeeds ds) :
    BreaksAtFeeds (cs ++ ds) := fun c hc =>
  (List.mem_append.1 hc).elim (h c) (h' c)

theorem BreaksAtFeeds.mono (h : BreaksAtFeeds cs) (hsub : ds ⊆ cs) : BreaksAtFeeds ds :=
  fun c hc => h c (hsub hc)

/-! ## Shown lines -/

namespace Text

theorem isBreak_of_notMem_feed (h : BreaksAtFeeds cs) (hfeed : '\n' ∉ cs) :
    ∀ c ∈ cs, isBreak c = false := fun c hc => by
  by_contra hbreak
  exact hfeed (h c hc (by simpa using hbreak) ▸ hc)

theorem shownLines_cons (hc : isBreak c = false) {rest : List (List Char)}
    (h : shownLines cs = line :: rest) : shownLines (c :: cs) = (c :: line) :: rest := by
  have hne : c ≠ '\r' := by rintro rfl; cases hc
  rw [shownLines.eq_3 _ _ fun _ h _ => hne h, hc, h]
  rfl

theorem shownLines_of_unbroken (h : ∀ c ∈ cs, isBreak c = false) : shownLines cs = [cs] := by
  induction cs with
  | nil => rfl
  | cons c cs ih =>
    obtain ⟨hc, hcs⟩ := List.forall_mem_cons.1 h
    exact shownLines_cons hc (ih hcs)

theorem shownLines_feed (h : ∀ c ∈ cs, isBreak c = false) (ds : List Char) :
    shownLines (cs ++ '\n' :: ds) = (cs ++ ['\n']) :: shownLines ds := by
  induction cs with
  | nil =>
    rw [List.nil_append, shownLines.eq_3 _ _ fun _ h _ => absurd h (by decide)]
    rfl
  | cons c cs ih =>
    obtain ⟨hc, hcs⟩ := List.forall_mem_cons.1 h
    exact shownLines_cons hc (ih hcs)

theorem withoutFeed_of_unbroken (h : ∀ c ∈ cs, isBreak c = false) : withoutFeed cs = cs := by
  have hlast : (cs.reverse.dropWhile fun c => c == '\n' || c == '\r') = cs.reverse := by
    rw [List.dropWhile_eq_self_iff]
    intro hpos hfeed
    have hmem := List.mem_reverse.1 (List.getElem_mem hpos)
    rcases Bool.or_eq_true_iff.1 hfeed with heq | heq <;>
      · have := h _ hmem
        rw [beq_iff_eq.1 heq] at this
        cases this
  rw [withoutFeed, hlast, List.reverse_reverse]

theorem withoutFeed_feed (h : ∀ c ∈ cs, isBreak c = false) : withoutFeed (cs ++ ['\n']) = cs := by
  have hfeed : withoutFeed (cs ++ ['\n']) = withoutFeed cs := by
    unfold withoutFeed
    rw [List.reverse_append, List.reverse_singleton, List.singleton_append,
      List.dropWhile_cons_of_pos (by decide)]
  rw [hfeed, withoutFeed_of_unbroken h]

theorem charactersBefore16_le (cs : List Char) (column : ℕ) :
    charactersBefore16 cs column ≤ cs.length := by
  induction cs generalizing column with
  | nil => exact le_rfl
  | cons c cs ih =>
    have := ih (column - units16 c)
    unfold charactersBefore16
    split_ifs
    · exact Nat.zero_le _
    · rw [List.length_cons]
      omega

/-- Characters in front of a column hold its bytes. -/
theorem byteLength_take_charactersBefore16 (cs : List Char) (column : ℕ) :
    byteLength (cs.take (charactersBefore16 cs column)) = bytesBefore16 cs column := by
  induction cs generalizing column with
  | nil => rfl
  | cons c cs ih =>
    unfold charactersBefore16 bytesBefore16
    split_ifs
    · rfl
    · rw [Nat.add_comm 1, List.take_succ_cons, byteLength, ih]

/-- A line of `cs` without its feed: what stands in front of it is shown as whole lines, and it begins and
ends where the line table says, if the first line begins at `i`. -/
theorem exists_shownLine (h : BreaksAtFeeds cs) (hn : (splitLines cs)[n]? = some line) (i : ℕ) :
    ∃ before after shown, cs = before ++ line ++ after ∧
      ((shownLines cs).take n).flatten = before ∧ (shownLines cs)[n]? = some shown ∧
      withoutFeed shown = line ∧ (spansOf i (splitLines cs))[n]? =
        some ⟨i + byteLength before, i + byteLength before + byteLength line⟩ := by
  induction cs using lines_induction generalizing n i with
  | last cs hfeed =>
    have hunbroken := isBreak_of_notMem_feed h hfeed
    rw [splitLines_of_notMem hfeed] at hn ⊢
    obtain ⟨rfl, rfl⟩ : n = 0 ∧ cs = line := by
      rcases n with _ | n
      · exact ⟨rfl, Option.some.inj hn⟩
      · cases hn
    exact ⟨[], [], cs, (List.append_nil _).symm, rfl, by rw [shownLines_of_unbroken hunbroken]; rfl,
      withoutFeed_of_unbroken hunbroken, rfl⟩
  | feed cs ds hfeed ih =>
    have hunbroken := isBreak_of_notMem_feed (h.mono (List.subset_append_left _ _)) hfeed
    rw [splitLines_feed hfeed] at hn ⊢
    rw [shownLines_feed hunbroken]
    rcases n with _ | n
    · obtain rfl := Option.some.inj hn
      exact ⟨[], '\n' :: ds, cs ++ ['\n'], rfl, rfl, rfl, withoutFeed_feed hunbroken, rfl⟩
    · have hds : BreaksAtFeeds ds := h.mono fun c hc => by simp [hc]
      obtain ⟨before, after, shown, rfl, hbefore, hshown, hline, hspan⟩ :=
        ih hds hn (i + byteLength cs + 1)
      have hlen : i + byteLength (cs ++ '\n' :: before) = i + byteLength cs + 1 + byteLength before := by
        rw [byteLength_append_feed]
        omega
      refine ⟨cs ++ '\n' :: before, after, shown, by simp, ?_, hshown, hline, ?_⟩
      · rw [List.take_succ_cons, List.flatten_cons, hbefore, List.append_assoc, List.singleton_append]
      · rw [spansOf, List.getElem?_cons_succ, hspan, hlen]

theorem length_shownLines (h : BreaksAtFeeds cs) :
    (shownLines cs).length = (splitLines cs).length := by
  induction cs using lines_induction with
  | last cs hfeed =>
    rw [splitLines_of_notMem hfeed, shownLines_of_unbroken (isBreak_of_notMem_feed h hfeed)]
  | feed cs ds hfeed ih =>
    rw [splitLines_feed hfeed, List.length_cons,
      shownLines_feed (isBreak_of_notMem_feed (h.mono (List.subset_append_left _ _)) hfeed),
      List.length_cons, ih (h.mono fun c hc => by simp [hc])]

end Text

/-! ## Places -/

/-- **Places.** The characters in front of a place hold the bytes in front of its offset. -/
theorem Place.offset_eq (h : BreaksAtFeeds s.toList) (p : Place) :
    p.offset s = byteLength (s.toList.take (charactersBefore s.toList p)) := by
  unfold Place.offset LineTable.offset16 charactersBefore
  rw [LineTable.lineSpan?_eq, lineSpans_ofText]
  rcases hline : (splitLines s.toList)[p.line]? with _ | line
  · have hlen := List.getElem?_eq_none_iff.1 hline
    have hspan : (spansOf 0 (splitLines s.toList))[p.line]? = none := by
      rwa [List.getElem?_eq_none_iff, length_spansOf]
    have hshown : (shownLines s.toList)[p.line]? = none := by
      rwa [List.getElem?_eq_none_iff, length_shownLines h]
    simp only [hspan, hshown]
    rw [List.take_length, byteLength_toList]
    rfl
  · obtain ⟨before, after, shown, hs, hbefore, hshown, rfl, hspan⟩ := exists_shownLine h hline 0
    have hslice : Span.slice? ⟨0 + byteLength before,
        0 + byteLength before + byteLength (withoutFeed shown)⟩ s =
          some (String.ofList (withoutFeed shown)) := by
      refine Span.slice?_eq_some_iff.2 ⟨.ofList before, .ofList after, ?_, ?_, ?_⟩
      · rw [← String.ofList_append, ← String.ofList_append, ← hs, String.ofList_toList]
      · rw [Nat.zero_add, byteLength_eq]
      · rw [Nat.zero_add, size_append, byteLength_eq, byteLength_eq]
    simp only [hspan, hshown, hslice, hbefore, String.toList_ofList]
    rw [hs, List.append_assoc, List.take_length_add_append, byteLength_append,
      List.take_append_of_le_length (charactersBefore16_le _ _), byteLength_take_charactersBefore16,
      Nat.zero_add]

/-! ## Changes -/

theorem byteLength_take_mono (cs : List Char) (h : j ≤ k) :
    byteLength (cs.take j) ≤ byteLength (cs.take k) := by
  obtain ⟨d, rfl⟩ := Nat.exists_eq_add_of_le h
  rw [List.take_add, byteLength_append]
  exact Nat.le_add_right _ _

theorem byteLength_take_max (cs : List Char) (j k : ℕ) :
    byteLength (cs.take (max j k)) = max (byteLength (cs.take j)) (byteLength (cs.take k)) := by
  rcases Nat.le_total j k with h | h
  · rw [Nat.max_eq_right h, Nat.max_eq_right (byteLength_take_mono cs h)]
  · rw [Nat.max_eq_left h, Nat.max_eq_left (byteLength_take_mono cs h)]

theorem take_bytes (s : String) (k : ℕ) :
    (bytes s).take (byteLength (s.toList.take k)) = bytes (String.ofList (s.toList.take k)) := by
  have hsplit := bytes_left (String.ofList (s.toList.take k)) (String.ofList (s.toList.drop k))
  rw [← String.ofList_append, List.take_append_drop, String.ofList_toList] at hsplit
  rw [byteLength_eq, ← hsplit]

theorem drop_bytes (s : String) (k : ℕ) :
    (bytes s).drop (byteLength (s.toList.take k)) = bytes (String.ofList (s.toList.drop k)) := by
  have hsplit : bytes s = bytes (String.ofList (s.toList.take k)) ++
      bytes (String.ofList (s.toList.drop k)) := by
    rw [← bytes_append, ← String.ofList_append, List.take_append_drop, String.ofList_toList]
  rw [hsplit, byteLength_eq, ← length_bytes, List.drop_left]

namespace Change

variable {c : Change}

/-- A change of characters is one of bytes. -/
theorem applyBytes?_eq (h : BreaksAtFeeds s.toList) :
    c.applyBytes? s = some (.ofList (c.apply s.toList)) := by
  unfold applyBytes? Change.apply
  rcases c.range with _ | r
  · rw [String.ofList_toList]
  · have hstart := r.start.offset_eq h
    have hstop := r.stop.offset_eq h
    simp only [Span.replace?, Range16.span]
    rw [hstart, hstop, ← byteLength_take_max, take_bytes, drop_bytes, ← bytes_append, ← bytes_append,
      ofBytes?_bytes, String.ofList_append, String.ofList_append, String.ofList_toList]

theorem breaksAtFeeds_apply (hc : BreaksAtFeeds c.text.toList) (h : BreaksAtFeeds cs) :
    BreaksAtFeeds (c.apply cs) := by
  unfold Change.apply
  rcases c.range with _ | r
  · exact hc
  · exact ((h.mono (List.take_subset _ _)).append hc).append (h.mono (List.drop_subset _ _))

end Change

/-- **Edits.** On texts that break their lines at feeds only, the changes of an editor replace the bytes
between the offsets that the line table of each intermediate text gives. -/
theorem Snapshot.edit_eq_foldlM (snapshot : Snapshot) (changes : List Change)
    (htext : BreaksAtFeeds snapshot.text.toList)
    (hchanges : ∀ c ∈ changes, BreaksAtFeeds c.text.toList) :
    changes.foldlM Change.applyBytes? snapshot.text = some (snapshot.edit changes) := by
  have hfold (changes : List Change) (hchanges : ∀ c ∈ changes, BreaksAtFeeds c.text.toList)
      (cs : List Char) (hcs : BreaksAtFeeds cs) :
      changes.foldlM Change.applyBytes? (String.ofList cs) =
        some (.ofList (changes.foldl (fun cs c => c.apply cs) cs)) := by
    induction changes generalizing cs with
    | nil => rfl
    | cons c changes ih =>
      obtain ⟨hc, hchanges⟩ := List.forall_mem_cons.1 hchanges
      have hstep : c.applyBytes? (String.ofList cs) = some (.ofList (c.apply cs)) := by
        rw [Change.applyBytes?_eq (by rwa [String.toList_ofList]), String.toList_ofList]
      rw [List.foldlM_cons, hstep]
      exact ih hchanges _ (Change.breaksAtFeeds_apply hc hcs)
  have hall := hfold changes hchanges snapshot.text.toList htext
  rwa [String.ofList_toList] at hall

/-- Changes at a column inside a surrogate pair, over a range that ends before it starts, and on a line past the
end, on the text that the ones before left. -/
def clampedChanges : List Change :=
  [⟨some ⟨⟨0, 2⟩, ⟨0, 3⟩⟩, "X\n"⟩, ⟨some ⟨⟨1, 9⟩, ⟨0, 9⟩⟩, "!"⟩, ⟨some ⟨⟨7, 0⟩, ⟨9, 4⟩⟩, "é"⟩]

theorem Snapshot.edit_eq_foldlM_clamped :
    BreaksAtFeeds (Snapshot.mk "a😀b\nc" 1 0).text.toList ∧
      (∀ c ∈ clampedChanges, BreaksAtFeeds c.text.toList) ∧
      clampedChanges.foldlM Change.applyBytes? "a😀b\nc" =
        some ((Snapshot.mk "a😀b\nc" 1 0).edit clampedChanges) ∧
      (Snapshot.mk "a😀b\nc" 1 0).edit clampedChanges = "aX\nb!\ncé" := by
  have htext : BreaksAtFeeds (Snapshot.mk "a😀b\nc" 1 0).text.toList := by decide +kernel
  have hchanges : ∀ c ∈ clampedChanges, BreaksAtFeeds c.text.toList := by decide +kernel
  exact ⟨htext, hchanges, Snapshot.edit_eq_foldlM ⟨"a😀b\nc", 1, 0⟩ clampedChanges htext hchanges,
    by decide +kernel⟩

end Polyglot
