import Polyglot.Proofs.Data.Member

/-!
# Indented data

Data that are written as indented rows are read back, whatever line feeds follow (`Document.ofText_block`). The
rows of a collection end at the first row that is not deeper (`Ends`), so the rows of its members are taken
one member after the other, each from the column that it was written at.
-/

namespace Polyglot.Data

open Text Typed Datum

variable {s : String} {i k m start : ℕ} {after : List Line} {rs rs' : List Row}

/-! ## Rows of members -/

theorem exists_linesAt_append (rs rs' : List Row) (start : ℕ) :
    ∃ start', linesAt start (rs ++ rs') = linesAt start rs ++ linesAt start' rs' := by
  induction rs generalizing start with
  | nil => exact ⟨start, rfl⟩
  | cons r rs ih =>
    obtain ⟨start', h⟩ := ih (start + size r.text + 1)
    exact ⟨start', congrArg (r.line start :: ·) h⟩

/-- The first of the rows, if there is one, stands at the column and is not blank. -/
def HeadedAt (k : ℕ) (rs : List Row) : Prop :=
  ∀ r, rs.head? = some r → r.indent = k ∧ ∀ start, (r.line start).isBlank = false

theorem HeadedAt.ends (h : HeadedAt k rs) (hafter : Ends m after) (hkm : k < m) (start : ℕ) :
    Ends m (linesAt start rs ++ after) := by
  rcases rs with _ | ⟨r, rs⟩
  · exact hafter
  · obtain ⟨hindent, hblank⟩ := h r rfl
    intro l hl
    rw [linesAt, List.cons_append, List.dropWhile_cons_of_neg (by simp [hblank])] at hl
    obtain rfl := Option.some.inj hl
    exact hindent.trans_lt hkm

/-- Blank lines are passed over only behind the last row. -/
theorem HeadedAt.exists_dropWhile (h : HeadedAt k rs) (start : ℕ) (after : List Line) :
    ∃ after', (linesAt start rs ++ after).dropWhile Line.isBlank = linesAt start rs ++ after' ∧
      after'.dropWhile Line.isBlank = after.dropWhile Line.isBlank := by
  rcases rs with _ | ⟨r, rs⟩
  · exact ⟨after.dropWhile Line.isBlank, rfl, List.dropWhile_idempotent ..⟩
  · obtain ⟨-, hblank⟩ := h r rfl
    refine ⟨after, ?_, rfl⟩
    rw [linesAt, List.cons_append, List.dropWhile_cons_of_neg (by simp [hblank])]

theorem Ends.of_dropWhile_eq {after' : List Line} (h : Ends k after)
    (heq : after'.dropWhile Line.isBlank = after.dropWhile Line.isBlank) : Ends k after' := by
  rw [Ends, heq]
  exact h

theorem headedAt_member {lead : String} {c : Char} {cs : List Char} (hlead : octets lead = c :: cs)
    (hc : c ≠ '#') (inline : Option String) (rows rs : List Row) :
    HeadedAt k (member k lead inline rows ++ rs) := by
  intro r hr
  cases inline with
  | none =>
    obtain rfl := Option.some.inj hr
    refine ⟨rfl, fun start => ?_⟩
    rw [Line.isBlank, Row.line, hlead]
    simpa using hc
  | some text =>
    obtain rfl := Option.some.inj hr
    refine ⟨rfl, fun start => ?_⟩
    rw [Line.isBlank, Row.line]
    dsimp only
    rw [octets_append, octets_append, hlead]
    simpa using hc

theorem headedAt_itemRows (k : ℕ) (items : List Datum) : HeadedAt k (itemRows k items) := by
  rcases items with _ | ⟨d, ds⟩
  · rintro r ⟨⟩
  · rw [itemRows]
    exact headedAt_member (c := '-') rfl (by decide) _ _ _

theorem octets_lead (key : String) : octets ((Value.text key).key ++ ":") =
    '"' :: (octets (String.ofList (quoteBody key)) ++ ['"', ':']) := by
  rw [octets_append, Value.key, quote_eq, octets_quoted, List.cons_append, List.append_assoc]
  rfl

theorem headedAt_pairRows (k : ℕ) (pairs : List (String × Datum)) : HeadedAt k (pairRows k pairs) := by
  rcases pairs with _ | ⟨⟨key, d⟩, ps⟩
  · rintro r ⟨⟩
  · rw [pairRows]
    exact headedAt_member (octets_lead key) (by decide) _ _ _

/-! ## Collections -/

/-- The block on the lines, at column `k`, is the data, and it leaves the lines `left`. -/
def IsBlockOf (s : String) (k : ℕ) (d : Datum) (lines left : List Line) : Prop :=
  ∃ l rest y n, lines = l :: rest ∧ l.indent = k ∧ l.isBlank = false ∧
    block s l rest = .ok ⟨y, n, []⟩ ∧ rest.drop n = left ∧ y.shape = d.shape false

/-- Below a key or a dash that stands more to the left, the block is the value. Behind it come the rows of
the other members, and without any the lines behind the last one. -/
theorem IsBlockOf.nested {d : Datum} {lines : List Line}
    (h : IsBlockOf s m d lines ((linesAt start rs ++ after).dropWhile Line.isBlank)) (hkm : k < m)
    (hlines : LinesFrom s i lines) (hheaded : HeadedAt k rs) (hafter : Ends k after) :
    ∃ y n after', (∀ underKey anchor, blockNested s k underKey anchor lines = .ok ⟨y, n, []⟩) ∧
      lines.drop n = linesAt start rs ++ after' ∧ LinesFrom s i (linesAt start rs ++ after') ∧
      after'.dropWhile Line.isBlank = after.dropWhile Line.isBlank ∧ Ends k after' ∧
      y.shape = d.shape false := by
  obtain ⟨l, rest, y, n, rfl, rfl, hblank, hy, hdrop, hshape⟩ := h
  obtain ⟨after', heq, hafter'⟩ := hheaded.exists_dropWhile start after
  have hmore := hlines.drop (n + 1)
  rw [List.drop_succ_cons, hdrop, heq] at hmore
  refine ⟨y, n + 1, after', fun underKey anchor => blockNested_of_block hblank hkm hy, ?_, hmore,
    hafter', hafter.of_dropWhile_eq hafter', hshape⟩
  rw [List.drop_succ_cons, hdrop, heq]

/-- The lines of a member with rows below it. -/
theorem linesAt_member_none (k : ℕ) (lead : String) (rows rs : List Row) (start : ℕ)
    (after : List Line) : ∃ start' start'', linesAt start (member k lead none rows ++ rs) ++ after =
      Row.line start ⟨k, lead⟩ :: (linesAt start' rows ++ (linesAt start'' rs ++ after)) := by
  obtain ⟨start'', h⟩ := exists_linesAt_append rows rs (start + size (Row.text ⟨k, lead⟩) + 1)
  refine ⟨start + size (Row.text ⟨k, lead⟩) + 1, start'', ?_⟩
  rw [← List.append_assoc, ← h]
  rfl

theorem exists_itemRows_cons (k : ℕ) (d : Datum) (ds : List Datum) :
    ∃ r rs, itemRows k (d :: ds) = r :: rs ∧ ∀ start, (r.line start).isItem = true := by
  rw [itemRows]
  rcases d.inline? with _ | t
  · exact ⟨_, _, rfl, fun _ => rfl⟩
  · refine ⟨_, _, rfl, fun start => ?_⟩
    rw [Line.isItem, Row.line]
    dsimp only
    rw [octets_append, octets_append]
    rfl

theorem exists_pairRows_cons (k : ℕ) (key : String) (d : Datum) (ps : List (String × Datum)) :
    ∃ r rs u, pairRows k ((key, d) :: ps) = r :: rs ∧ r.content = quote key ++ (":" ++ u) ∧
      (octets u).head?.all isBlank = true := by
  rw [pairRows]
  rcases d.inline? with _ | t
  · exact ⟨_, _, "", rfl, by rw [String.append_empty]; rfl, rfl⟩
  · refine ⟨_, _, " " ++ t, rfl, ?_, ?_⟩
    · simp only [String.append_assoc]
      rfl
    · rw [octets_append]
      rfl

mutual

/-- **Rows.** A collection is read from its rows, and the lines that follow are left. -/
theorem block_rows : (d : Datum) → d.inline? = none → d.HasDistinctKeys →
    ∀ {k start i : ℕ} {after : List Line}, LinesFrom s i (linesAt start (d.rows k) ++ after) →
      Ends k after →
      IsBlockOf s k d (linesAt start (d.rows k) ++ after) (after.dropWhile Line.isBlank)
  | .atom a, hd, _, _, _, _, _, _, _ => by cases hd
  | .sequence [], hd, _, _, _, _, _, _, _ => by cases hd
  | .mapping [], hd, _, _, _, _, _, _, _ => by cases hd
  | .sequence (d :: ds), _, hkeys, k, start, i, after, hlines, hafter => by
    obtain ⟨xs, n, hxs, hdrop, hshapes⟩ := blockItems_rows (d :: ds) hkeys hlines hafter
    obtain ⟨r, rs, hrows, hitem⟩ := exists_itemRows_cons k d ds
    obtain ⟨rfl, hblank⟩ := headedAt_itemRows k (d :: ds) r (by rw [hrows]; rfl)
    rw [rows, hrows]
    rw [hrows, linesAt, List.cons_append] at hxs hdrop
    obtain ⟨span, m, rfl, hblock⟩ := block_of_items (hitem start) (hblank start) hxs
    exact ⟨_, _, _, m, rfl, rfl, hblank start, hblock, hdrop, by
      rw [Tree.shape, Datum.shape, hshapes]; rfl⟩
  | .mapping ((key, d) :: ps), _, hkeys, k, start, i, after, hlines, hafter => by
    obtain ⟨ys, n, hys, hdrop, hshapes⟩ := blockPairs_rows ((key, d) :: ps) [] hkeys.2 hkeys.1
      (fun _ _ => List.not_mem_nil) hlines hafter
    obtain ⟨r, rs, u, hrows, hcontent, hu⟩ := exists_pairRows_cons k key d ps
    obtain ⟨rfl, hblank⟩ := headedAt_pairRows k ((key, d) :: ps) r (by rw [hrows]; rfl)
    rw [rows, hrows] at hlines ⊢
    rw [hrows, linesAt, List.cons_append] at hys hdrop
    have hkeyed : Line.IsKeyed s (r.line start) key u := ⟨hlines.2.1, congrArg octets hcontent⟩
    obtain ⟨span, m, rfl, hblock⟩ := block_of_pairs hkeyed.isItem (hblank start)
      (by rw [hkeyed.findKey? hu]; rfl) hys
    exact ⟨_, _, _, m, rfl, rfl, hblank start, hblock, hdrop, by
      rw [Tree.shape, Datum.shape, hshapes]; rfl⟩

theorem blockItems_rows : (items : List Datum) → itemsHaveDistinctKeys items →
    ∀ {k start i : ℕ} {after : List Line}, LinesFrom s i (linesAt start (itemRows k items) ++ after) →
      Ends k after → ∃ xs n, blockItems s k (linesAt start (itemRows k items) ++ after) =
          .ok ⟨xs, n, []⟩ ∧
        (linesAt start (itemRows k items) ++ after).drop n = after.dropWhile Line.isBlank ∧
        shapesOfItems (xs.map (·.2)) = itemShapes false items
  | [], _, k, start, i, after, _, hafter => by
    obtain ⟨n, hn, hdrop⟩ := blockItems_of_ends hafter
    exact ⟨[], n, hn, hdrop, rfl⟩
  | d :: ds, hkeys, k, start, i, after, hlines, hafter => by
    rw [itemRows] at hlines ⊢
    have hheaded := headedAt_itemRows k ds
    rcases hinline : d.inline? with _ | t
    · obtain ⟨start', start'', hsplit⟩ :=
        linesAt_member_none k "-" (d.rows (k + 2)) (itemRows k ds) start after
      rw [hinline, hsplit] at hlines
      rw [hsplit]
      have hdashed : Line.IsDashed s (Row.line start ⟨k, "-"⟩) "" := ⟨hlines.2.1, rfl⟩
      have hblock := block_rows d hinline hkeys.1 hlines.2.2
        (hheaded.ends (hafter.mono (Nat.le_add_right k 2)) (by omega) start'')
      obtain ⟨y, n, after', hy, hleft, hmore, hafter', hends, hshape⟩ :=
        hblock.nested (by omega : k < k + 2) hlines.2.2 hheaded hafter
      obtain ⟨xs, m, hxs, hdrop, hshapes⟩ := blockItems_rows ds hkeys.2 hmore hends
      have hread := hdashed.blockItems_nested (hy false _) (by rw [hleft]; exact hxs)
      refine ⟨_, _, hread, ?_, ?_⟩
      · rw [Nat.add_assoc, Nat.add_comm, List.drop_succ_cons, ← List.drop_drop, hleft, hdrop, hafter']
      · rw [List.map_cons, shapesOfItems, itemShapes, hshape, hshapes]
    · rw [hinline] at hlines
      have hdashed : Line.IsDashed s (Row.line start ⟨k, "-" ++ " " ++ t⟩) (" " ++ t) :=
        ⟨hlines.2.1, by rw [Row.line, String.append_assoc, octets_append]; rfl⟩
      obtain ⟨xs, n, hxs, hdrop, hshapes⟩ := blockItems_rows ds hkeys.2 hlines.2.2 hafter
      obtain ⟨y, hy, hshape⟩ := hdashed.blockItems_inline hinline hlines.2.2
        (hheaded.ends (hafter.mono (Nat.le_succ k)) (Nat.lt_succ_self k) _) hxs
      refine ⟨_, _, hy, ?_, ?_⟩
      · rw [Nat.add_comm]
        exact hdrop
      · rw [List.map_cons, shapesOfItems, itemShapes, hshape, hshapes]

theorem blockPairs_rows : (pairs : List (String × Datum)) → (seen : List String) →
    pairsHaveDistinctKeys pairs → (pairs.map Prod.fst).Nodup → (∀ p ∈ pairs, quote p.1 ∉ seen) →
    ∀ {k start i : ℕ} {after : List Line}, LinesFrom s i (linesAt start (pairRows k pairs) ++ after) →
      Ends k after → ∃ xs n, blockPairs s k seen (linesAt start (pairRows k pairs) ++ after) =
          .ok ⟨xs, n, []⟩ ∧
        (linesAt start (pairRows k pairs) ++ after).drop n = after.dropWhile Line.isBlank ∧
        shapesOfPairs xs = pairShapes false pairs
  | [], seen, _, _, _, k, start, i, after, _, hafter => by
    obtain ⟨n, hn, hdrop⟩ := blockPairs_of_ends seen hafter
    exact ⟨[], n, hn, hdrop, rfl⟩
  | (key, d) :: ps, seen, hkeys, hnodup, hseen, k, start, i, after, hlines, hafter => by
    rw [pairRows] at hlines ⊢
    have hheaded := headedAt_pairRows k ps
    have hfresh := hseen _ List.mem_cons_self
    have hseen' := quote_notMem_cons hnodup hseen
    have hnodup' := (List.nodup_cons.1 hnodup).2
    rcases hinline : d.inline? with _ | t
    · obtain ⟨start', start'', hsplit⟩ := linesAt_member_none k ((Value.text key).key ++ ":")
        (d.rows (k + 2)) (pairRows k ps) start after
      rw [hinline, hsplit] at hlines
      rw [hsplit]
      have hkeyed : Line.IsKeyed s (Row.line start ⟨k, (Value.text key).key ++ ":"⟩) key "" :=
        ⟨hlines.2.1, by rw [String.append_empty]; rfl⟩
      have hblock := block_rows d hinline hkeys.1 hlines.2.2
        (hheaded.ends (hafter.mono (Nat.le_add_right k 2)) (by omega) start'')
      obtain ⟨y, n, after', hy, hleft, hmore, hafter', hends, hshape⟩ :=
        hblock.nested (by omega : k < k + 2) hlines.2.2 hheaded hafter
      obtain ⟨ys, m, hys, hdrop, hshapes⟩ := blockPairs_rows ps (quote key :: seen) hkeys.2 hnodup'
        hseen' hmore hends
      obtain ⟨x, hread, hx⟩ := hkeyed.blockPairs_nested hfresh (hy true) (by rw [hleft]; exact hys)
      refine ⟨_, _, hread, ?_, ?_⟩
      · rw [Nat.add_assoc, Nat.add_comm, List.drop_succ_cons, ← List.drop_drop, hleft, hdrop, hafter']
      · rw [shapesOfPairs, pairShapes, hx, hshape, hshapes]
    · rw [hinline] at hlines
      have hkeyed : Line.IsKeyed s (Row.line start ⟨k, (Value.text key).key ++ ":" ++ " " ++ t⟩) key
          (" " ++ t) := ⟨hlines.2.1, by simp only [Row.line, String.append_assoc]; rfl⟩
      obtain ⟨ys, n, hys, hdrop, hshapes⟩ := blockPairs_rows ps (quote key :: seen) hkeys.2 hnodup'
        hseen' hlines.2.2 hafter
      obtain ⟨x, y, hread, hx, hshape⟩ := hkeyed.blockPairs_inline hinline hlines.2.2
        (hheaded.ends (hafter.mono (Nat.le_succ k)) (Nat.lt_succ_self k) _) hfresh hys
      refine ⟨_, _, hread, ?_, ?_⟩
      · rw [Nat.add_comm]
        exact hdrop
      · rw [shapesOfPairs, pairShapes, hx, hshape, hshapes]

end

/-! ## Documents -/

theorem fitsLine_inline {d : Datum} {t : String} (hd : d.inline? = some t) : FitsLine (octets t) := by
  obtain ⟨a, rfl, rfl⟩ | ⟨-, rfl, -⟩ := inline_cases hd
  · exact a.spelledBy_literal.fitsLine
  · exact isJsonClosed_fitsLine.json d

theorem isLine_member {d : Datum} {lead : String} {rows : List Row} (hlead : FitsLine (octets lead))
    (hne : octets lead ≠ []) (hrows : ∀ r ∈ rows, r.IsLine) :
    ∀ r ∈ member k lead d.inline? rows, r.IsLine := by
  rcases hinline : d.inline? with _ | t
  · exact List.forall_mem_cons.2 ⟨hlead, hrows⟩
  · refine List.forall_mem_cons.2 ⟨?_, fun r hr => absurd hr List.not_mem_nil⟩
    have hfits := hlead.spaced (fitsLine_inline hinline) hne
      (ne_nil_of_any_head? (beginsValue_inline hinline))
    rw [Row.IsLine, octets_append, octets_append, List.append_assoc]
    exact hfits

mutual

theorem isLine_rows : (d : Datum) → (k : ℕ) → ∀ r ∈ d.rows k, r.IsLine
  | .atom _, _ => fun _ hr => absurd hr List.not_mem_nil
  | .sequence items, k => isLine_itemRows items k
  | .mapping pairs, k => isLine_pairRows pairs k

theorem isLine_itemRows : (items : List Datum) → (k : ℕ) → ∀ r ∈ itemRows k items, r.IsLine
  | [], _ => fun _ hr => absurd hr List.not_mem_nil
  | d :: ds, k => by
    have hlead : FitsLine (octets "-") := @fitsLine_of_all ['-'] (by decide)
    rw [itemRows]
    exact List.forall_mem_append.2 ⟨isLine_member hlead (List.cons_ne_nil _ _) (isLine_rows d (k + 2)),
      isLine_itemRows ds k⟩

theorem isLine_pairRows : (pairs : List (String × Datum)) → (k : ℕ) → ∀ r ∈ pairRows k pairs, r.IsLine
  | [], _ => fun _ hr => absurd hr List.not_mem_nil
  | (key, d) :: ps, k => by
    have hlead : FitsLine (octets ((Value.text key).key ++ ":")) := by
      rw [octets_append]
      exact (spelledBy_quote key).fitsLine.append (fitsLine_of_all (by decide))
    have hne : octets ((Value.text key).key ++ ":") ≠ [] := by
      rw [octets_lead]
      exact List.cons_ne_nil _ _
    rw [pairRows]
    exact List.forall_mem_append.2 ⟨isLine_member hlead hne (isLine_rows d (k + 2)),
      isLine_pairRows ps k⟩

end

theorem isBlank_of_mem_blank {n : ℕ} {l : Line} (hl : l ∈ linesAt start (List.replicate n Row.blank)) :
    l.isBlank = true := by
  induction n generalizing start with
  | zero => cases hl
  | succ n ih =>
    rcases List.mem_cons.1 hl with rfl | hl
    · rfl
    · exact ih hl

theorem rows_ne_nil {d : Datum} (hmembers : d.inline? = none) (k : ℕ) : d.rows k ≠ [] := by
  cases d with
  | atom a => cases hmembers
  | sequence items =>
    rcases items with _ | ⟨d, ds⟩
    · cases hmembers
    · obtain ⟨r, rs, hrows, -⟩ := exists_itemRows_cons k d ds
      rw [rows, hrows]
      exact List.cons_ne_nil _ _
  | mapping pairs =>
    rcases pairs with _ | ⟨⟨key, d⟩, ps⟩
    · cases hmembers
    · obtain ⟨r, rs, u, hrows, -⟩ := exists_pairRows_cons k key d ps
      rw [rows, hrows]
      exact List.cons_ne_nil _ _

/-- **Indented data.** A collection with members that is written as indented rows is a document without
errors, whatever line feeds end it, and its root has the structure, the keys and the values of it. -/
theorem Document.ofText_block (d : Datum) (hmembers : d.inline? = none) (hkeys : d.HasDistinctKeys)
    (feeds : ℕ) :
    ∃ y, Document.ofText (d.block ++ String.ofList (List.replicate feeds '\n')) = .ok ⟨some y, []⟩ ∧
      y.shape = d.shape false := by
  obtain ⟨r, rs, hrs⟩ := List.exists_cons_of_ne_nil (rows_ne_nil hmembers 0)
  have htext := joinRows_append_blank (hrs ▸ List.cons_ne_nil r rs : d.rows 0 ≠ []) feeds
  rw [Datum.block, ← htext]
  set rows := d.rows 0 ++ List.replicate feeds Row.blank with hrows
  have hall : ∀ x ∈ rows, x.IsLine := by
    refine List.forall_mem_append.2 ⟨isLine_rows d 0, fun x hx => ?_⟩
    rw [List.eq_of_mem_replicate hx]
    exact fitsLine_nil
  have hcons : rows = r :: (rs ++ List.replicate feeds Row.blank) := by rw [hrows, hrs]; rfl
  obtain ⟨start, hsplit⟩ := exists_linesAt_append (d.rows 0) (List.replicate feeds Row.blank) 0
  have hlines := linesFrom_linesOf (joinRows rows)
  rw [linesOf_joinRows hall (hcons ▸ List.cons_ne_nil _ _), hsplit] at hlines
  have hblank : ∀ l ∈ linesAt start (List.replicate feeds Row.blank), l.isBlank = true :=
    fun l => isBlank_of_mem_blank
  obtain ⟨l, rest, y, n, heq, -, hfirst, hy, hdrop, hshape⟩ :=
    block_rows d hmembers hkeys hlines (ends_of_blank hblank 0)
  rw [← hsplit, ← hrows, hcons, linesAt, Nat.zero_add] at heq
  obtain ⟨rfl, rfl⟩ := List.cons.inj heq
  refine ⟨y, ?_, hshape⟩
  rw [hcons] at hall hy ⊢
  refine ofText_joinRows hall hfirst hy ?_
  rw [hdrop, List.dropWhile_eq_nil_iff.2 hblank]
  exact fun l hl => absurd hl List.not_mem_nil

/-- A colon in a key, a negative number in a sequence of a sequence, and texts that look like structure. -/
def Datum.crossed : Datum :=
  .mapping [
    ("a: \"b\"", .sequence [
      .sequence [.atom (.int (-1)), .mapping []],
      .atom (.text "- #\n<"),
      .mapping [("k", .atom .null)]]),
    ("", .mapping [("x", .sequence []), ("true", .atom (.bool false))])]

theorem Document.ofText_block_crossed : crossed.inline? = none ∧ crossed.HasDistinctKeys ∧
    ∃ y, Document.ofText (crossed.block ++ String.ofList (List.replicate 1 '\n')) = .ok ⟨some y, []⟩ ∧
      y.shape = crossed.shape false :=
  have hkeys : crossed.HasDistinctKeys := by
    simp [crossed, HasDistinctKeys, itemsHaveDistinctKeys, pairsHaveDistinctKeys]
  ⟨rfl, hkeys, Document.ofText_block crossed rfl hkeys 1⟩

example : crossed.block =
    "\"a: \\\"b\\\"\":\n  -\n    - -1\n    - \x7b\x7d\n  - \"- #\\n\\u003C\"\n  -\n    \"k\": null\n" ++
    "\"\":\n  \"x\": []\n  \"true\": false" := by
  decide

end Polyglot.Data
