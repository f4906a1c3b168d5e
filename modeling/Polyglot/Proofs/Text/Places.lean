import Polyglot.Proofs.Text.Columns
import Polyglot.Proofs.Text.Octet

/-!
# Offsets and places

The lines of a text lie one behind the other, and every offset lies on one of them, the end of a line
included. So an offset has one line and one column, and both conversions, in bytes and in UTF-16 units,
are inverse and keep the order (`LineTable.conversions`).
-/

namespace Polyglot

namespace Text

variable {cs : List Char} {xs : List ℕ} {start i j k a o column column' : ℕ}

/-! ## Starts of lines -/

/-- A line starts behind each feed. -/
theorem mem_startsAfterFeeds :
    j ∈ startsAfterFeeds cs i ↔ ∃ k, cs[k]? = some '\n' ∧ j = i + k + 1 := by
  induction cs generalizing i with
  | nil => simp [startsAfterFeeds]
  | cons c cs ih =>
    have hrest : j ∈ startsAfterFeeds cs (i + 1) ↔
        ∃ k, (c :: cs)[k + 1]? = some '\n' ∧ j = i + (k + 1) + 1 := by
      rw [ih]
      simp only [List.getElem?_cons_succ, Nat.add_right_comm i 1, Nat.add_assoc]
    unfold startsAfterFeeds
    split_ifs with hc
    · rw [List.mem_cons, hrest]
      constructor
      · rintro (rfl | ⟨k, hk, rfl⟩)
        · exact ⟨0, congrArg some hc, rfl⟩
        · exact ⟨k + 1, hk, rfl⟩
      · rintro ⟨_ | k, hk, rfl⟩
        · exact .inl rfl
        · exact .inr ⟨k, hk, rfl⟩
    · rw [hrest]
      constructor
      · rintro ⟨k, hk, rfl⟩
        exact ⟨k + 1, hk, rfl⟩
      · rintro ⟨_ | k, hk, rfl⟩
        · exact absurd (Option.some.inj hk) hc
        · exact ⟨k, hk, rfl⟩

theorem startsAfterFeeds_pairwise (h : start ≤ i) :
    (start :: startsAfterFeeds cs i).Pairwise (· < ·) := by
  induction cs generalizing start i with
  | nil => exact List.pairwise_singleton _ _
  | cons c cs ih =>
    have hstart := ih (h.trans (Nat.le_succ i))
    unfold startsAfterFeeds
    split_ifs
    · refine List.pairwise_cons.2 ⟨List.forall_mem_cons.2 ⟨Nat.lt_succ_of_le h, ?_⟩, ih le_rfl⟩
      exact (List.pairwise_cons.1 hstart).1
    · exact hstart

/-- Among ascending numbers those up to `o` come first. -/
theorem filter_le_prefix (hxs : xs.Pairwise (· < ·)) (o : ℕ) : xs.filter (· ≤ o) <+: xs := by
  induction hxs with
  | nil => exact List.prefix_rfl
  | @cons x xs hx _ ih =>
    by_cases hle : x ≤ o
    · rw [List.filter_cons_of_pos (by simpa using hle)]
      exact List.cons_prefix_cons.2 ⟨rfl, ih⟩
    · have hnone : (x :: xs).filter (· ≤ o) = [] := by
        refine List.filter_eq_nil_iff.2 (List.forall_mem_cons.2 ⟨by simpa using hle, fun y hy => ?_⟩)
        have hlt := hx y hy
        rw [decide_eq_true_eq]
        omega
      rw [hnone]
      exact List.nil_prefix

/-- The last number up to `o` tells how many they are. -/
theorem countP_le_eq (hxs : xs.Pairwise (· < ·)) (ha : xs[k]? = some a) (hle : a ≤ o)
    (hnext : ∀ b ∈ xs[k + 1]?, o < b) : xs.countP (· ≤ o) = k + 1 := by
  induction xs generalizing k with
  | nil => cases ha
  | cons x xs ih =>
    obtain ⟨hx, hxs⟩ := List.pairwise_cons.1 hxs
    rcases k with _ | k
    · obtain rfl := Option.some.inj ha
      have hnone : xs.countP (· ≤ o) = 0 := by
        rcases xs with _ | ⟨y, ys⟩
        · rfl
        · have hy : o < y := hnext y rfl
          rw [List.countP_eq_zero]
          refine List.forall_mem_cons.2 ⟨by simpa using hy, fun z hz => ?_⟩
          simpa using hy.trans ((List.pairwise_cons.1 hxs).1 z hz)
      rw [List.countP_cons_of_pos (by simpa using hle), hnone]
    · have hxo : x ≤ o := (hx a (List.mem_of_getElem? ha)).le.trans hle
      rw [List.countP_cons_of_pos (by simpa using hxo), ih hxs ha hnext]

/-! ## UTF-16 columns of a line -/

theorem bytesBefore16_le (cs : List Char) (column : ℕ) :
    bytesBefore16 cs column ≤ size (String.ofList cs) := by
  obtain ⟨p, q, rfl, hp⟩ := bytesBefore16_eq_size cs column
  rw [hp, String.ofList_append, size_append]
  exact Nat.le_add_right _ _

theorem bytesBefore16_mono (cs : List Char) (h : column ≤ column') :
    bytesBefore16 cs column ≤ bytesBefore16 cs column' := by
  induction cs generalizing column column' with
  | nil => exact le_rfl
  | cons c cs ih =>
    unfold bytesBefore16
    split_ifs with hlt hlt'
    · exact le_rfl
    · exact Nat.zero_le _
    · omega
    · exact Nat.add_le_add_left (ih (Nat.sub_le_sub_right h _)) _

/-- The column behind some characters of a line is their width. -/
theorem bytesBefore16_width16 (ps qs : List Char) :
    bytesBefore16 (ps ++ qs) (width16 ps) = size (String.ofList ps) := by
  induction ps with
  | nil =>
    rcases qs with _ | ⟨q, qs⟩
    · rfl
    · exact if_pos (units16_pos q)
  | cons p ps ih =>
    rw [List.cons_append, bytesBefore16, width16, if_neg (Nat.not_lt.2 (Nat.le_add_right _ _)),
      Nat.add_sub_cancel_left, ih, size_ofList_cons]

end Text

namespace LineTable

open Text

variable {s content : String} {t : LineTable} {line line' column column' o : ℕ} {r r' : Span}
  {unit : ColumnUnit}

/-! ## Lines -/

/-- A line goes on to the feed before the next one, and the last line to the end of the text. -/
theorem lineSpan?_eq_some_iff : t.lineSpan? line = some r ↔ t.starts[line]? = some r.start ∧
    r.stop = ((t.starts[line + 1]?).map (· - 1)).getD t.size := by
  unfold lineSpan? lineEnd? lineStart? lineCount
  rcases hstart : t.starts[line]? with _ | start
  · simp
  · rw [if_pos (List.getElem?_eq_some_iff.1 hstart).1]
    rcases r with ⟨a, b⟩
    rcases t.starts[line + 1]? with _ | next <;> simp [eq_comm]

theorem exists_lineSpan?_of_lt {start : ℕ} (h : t.starts[line']? = some start) (hlt : line < line') :
    ∃ r, t.lineSpan? line = some r := by
  have hline' := (List.getElem?_eq_some_iff.1 h).1
  exact ⟨⟨_, _⟩, lineSpan?_eq_some_iff.2 ⟨List.getElem?_eq_getElem (hlt.trans hline'), rfl⟩⟩

theorem starts_pairwise (s : String) : (ofText s).starts.Pairwise (· < ·) :=
  startsAfterFeeds_pairwise le_rfl

theorem starts_lt {a b : ℕ} (h : (ofText s).starts[line]? = some a)
    (h' : (ofText s).starts[line']? = some b) (hlt : line < line') : a < b := by
  obtain ⟨hline, rfl⟩ := List.getElem?_eq_some_iff.1 h
  obtain ⟨hline', rfl⟩ := List.getElem?_eq_some_iff.1 h'
  exact List.pairwise_iff_getElem.1 (starts_pairwise s) line line' hline hline' hlt

/-- A line starts at the beginning of the text or behind a feed. -/
theorem mem_starts_iff :
    o ∈ (ofText s).starts ↔ o = 0 ∨ ∃ k, octet? s k = some '\n' ∧ o = k + 1 := by
  simp only [ofText, List.mem_cons, mem_startsAfterFeeds, octet?_eq_octets, Nat.zero_add]

/-- Between a line and the next one there is a feed. -/
theorem start_next {next : ℕ} (h : (ofText s).lineSpan? line = some r)
    (hnext : (ofText s).starts[line + 1]? = some next) :
    next = r.stop + 1 ∧ r.start ≤ r.stop ∧ octet? s r.stop = some '\n' := by
  obtain ⟨hstart, hstop⟩ := lineSpan?_eq_some_iff.1 h
  have hlt := starts_lt hstart hnext (Nat.lt_succ_self line)
  obtain ⟨k, hk, rfl⟩ := (mem_starts_iff.1 (List.mem_of_getElem? hnext)).resolve_left (by omega)
  obtain rfl : r.stop = k := by
    rw [hstop, hnext]
    rfl
  exact ⟨rfl, Nat.le_of_lt_succ hlt, hk⟩

/-- Where a line begins and where it ends. -/
structure IsLine (s : String) (r : Span) : Prop where
  le : r.start ≤ r.stop
  begins : r.start = 0 ∨ ∃ k, octet? s k = some '\n' ∧ r.start = k + 1
  ends : octet? s r.stop = some '\n' ∨ r.stop = Text.size s

theorem isLine (h : (ofText s).lineSpan? line = some r) : IsLine s r := by
  obtain ⟨hstart, hstop⟩ := lineSpan?_eq_some_iff.1 h
  have hbegins := mem_starts_iff.1 (List.mem_of_getElem? hstart)
  rcases hnext : (ofText s).starts[line + 1]? with _ | next
  · have hend : r.stop = Text.size s := by
      rw [hstop, hnext]
      rfl
    refine ⟨?_, hbegins, .inr hend⟩
    rcases hbegins with hzero | ⟨k, hk, hr⟩
    · omega
    · have hlt := lt_size_of_octet? hk
      omega
  · obtain ⟨-, hle, hfeed⟩ := start_next h hnext
    exact ⟨hle, hbegins, .inl hfeed⟩

namespace IsLine

theorem stop_le (h : IsLine s r) : r.stop ≤ Text.size s := by
  rcases h.ends with hfeed | hend
  · exact (lt_size_of_octet? hfeed).le
  · exact hend.le

/-- A line is a slice of its text. -/
theorem exists_slice? (h : IsLine s r) : ∃ content, r.slice? s = some content := by
  refine Span.exists_slice? h.le ?_ ?_
  · rcases h.begins with hzero | ⟨k, hk, hr⟩
    · rw [hzero]
      exact isBoundary_zero s
    · rw [hr]
      exact isBoundary_succ_of_ascii hk (by decide)
  · rcases h.ends with hfeed | hend
    · exact isBoundary_of_ascii hfeed (by decide)
    · rw [hend]
      exact isBoundary_size s

end IsLine

/-- A line ends in front of all later ones. -/
theorem lineSpan?_apart (h : (ofText s).lineSpan? line = some r)
    (h' : (ofText s).lineSpan? line' = some r') (hlt : line < line') : r.stop < r'.start := by
  have hstart' := (lineSpan?_eq_some_iff.1 h').1
  have hline' := (List.getElem?_eq_some_iff.1 hstart').1
  obtain ⟨next, hnext⟩ : ∃ next, (ofText s).starts[line + 1]? = some next :=
    ⟨_, List.getElem?_eq_getElem (Nat.lt_of_le_of_lt hlt hline')⟩
  obtain ⟨rfl, -, -⟩ := start_next h hnext
  rcases Nat.lt_or_eq_of_le (Nat.succ_le_of_lt hlt) with hlt' | rfl
  · have hnext' := starts_lt hnext hstart' hlt'
    omega
  · have hnext' := Option.some.inj (hnext.symm.trans hstart')
    omega

/-- Every offset lies on a line. -/
theorem exists_lineSpan? (ho : o ≤ Text.size s) :
    ∃ line r, (ofText s).lineSpan? line = some r ∧ r.contains o = true := by
  have hlen : o ≤ 0 + (octets s).length := by rwa [Nat.zero_add, length_octets]
  obtain ⟨line, a, ha, hle, hafter⟩ := exists_line (Nat.zero_le o) hlen
  let r : Span := ⟨a, (((ofText s).starts[line + 1]?).map (· - 1)).getD (ofText s).size⟩
  have hr : (ofText s).lineSpan? line = some r := lineSpan?_eq_some_iff.2 ⟨ha, rfl⟩
  refine ⟨line, r, hr, Span.contains_iff.2 ⟨hle, ?_⟩⟩
  rcases hnext : (ofText s).starts[line + 1]? with _ | next
  · have hstop := (lineSpan?_eq_some_iff.1 hr).2
    rw [hnext] at hstop
    exact ho.trans_eq hstop.symm
  · have hlt := hafter next hnext
    have hstop := (start_next hr hnext).1
    omega

/-- The line of an offset is the only one that it lies on. -/
theorem lineOf_eq (h : (ofText s).lineSpan? line = some r) (ho : r.contains o = true) :
    (ofText s).lineOf o = line := by
  rw [Span.contains_iff] at ho
  unfold lineOf
  rw [countP_le_eq (starts_pairwise s) (lineSpan?_eq_some_iff.1 h).1 ho.1 fun next hnext => ?_,
    Nat.add_sub_cancel]
  have hstop := (start_next h hnext).1
  omega

/-! ## Byte columns -/

theorem offset_eq (h : t.lineSpan? line = some r) (column : ℕ) :
    t.offset line column = min (r.start + column) r.stop := by
  unfold offset
  rw [h]

theorem getD_start (h : t.lineSpan? line = some r) : t.starts.getD line 0 = r.start := by
  rw [List.getD_eq_getElem?_getD, (lineSpan?_eq_some_iff.1 h).1, Option.getD_some]

theorem position_eq (h : (ofText s).lineSpan? line = some r) (ho : r.contains o = true) :
    (ofText s).position o = (line, o - r.start) := by
  have hsize : o ≤ (ofText s).size := (Span.contains_iff.1 ho).2.trans (isLine h).stop_le
  unfold position
  dsimp only
  rw [Nat.min_eq_left hsize, lineOf_eq h ho, getD_start h]

theorem offset_position (ho : o ≤ Text.size s) :
    (ofText s).offset ((ofText s).position o).1 ((ofText s).position o).2 = o := by
  obtain ⟨line, r, hr, hmem⟩ := exists_lineSpan? ho
  rw [position_eq hr hmem, offset_eq hr]
  rw [Span.contains_iff] at hmem
  dsimp only
  omega

theorem position_offset (h : (ofText s).lineSpan? line = some r) (hcolumn : column ≤ r.length) :
    (ofText s).position ((ofText s).offset line column) = (line, column) := by
  have hle := (isLine h).le
  unfold Span.length at hcolumn
  have hoffset : (ofText s).offset line column = r.start + column := by
    rw [offset_eq h]
    omega
  rw [hoffset, position_eq h (Span.contains_iff.2 (by omega)), Nat.add_sub_cancel_left]

/-! ## UTF-16 columns -/

theorem offset16_eq (h : t.lineSpan? line = some r) (hcontent : r.slice? s = some content)
    (column : ℕ) : t.offset16 s line column = r.start + bytesBefore16 content.toList column := by
  unfold offset16
  simp only [h, hcontent]

/-- A boundary splits its line, and its column is the width of the part in front of it. -/
theorem exists_position16 (ho : isBoundary s o = true) :
    ∃ line r before after, (ofText s).lineSpan? line = some r ∧
      r.slice? s = some (before ++ after) ∧ r.start + Text.size before = o ∧
      (ofText s).position16 s o = (line, width16 before.toList) := by
  obtain ⟨line, r, hr, hmem⟩ := exists_lineSpan? (le_size_of_isBoundary ho)
  obtain ⟨content, hcontent⟩ := (isLine hr).exists_slice?
  obtain ⟨a, b, hs, ha, hstop⟩ := Span.slice?_eq_some_iff.1 hcontent
  obtain ⟨x, y, hxy, hx⟩ := isBoundary_iff.1 ho
  obtain ⟨hle, hle'⟩ := Span.contains_iff.1 hmem
  have hsplit : a ++ (content ++ b) = x ++ y := by rw [← String.append_assoc, ← hs, hxy]
  obtain ⟨before, rfl, hrest⟩ := Span.exists_of_append_eq hsplit (by omega)
  rw [size_append] at hx hstop
  obtain ⟨after, rfl, -⟩ := Span.exists_of_append_eq hrest.symm (by omega)
  have hbefore : (Span.withLength r.start (o - r.start)).slice? s = some before := by
    refine Span.slice?_eq_some_iff.2 ⟨a, y, hxy, ha, ?_⟩
    rw [size_append]
    show _ = r.start + (o - r.start)
    omega
  refine ⟨line, r, before, after, hr, hcontent, by omega, ?_⟩
  unfold position16
  rw [position_eq hr hmem]
  dsimp only
  rw [getD_start hr, hbefore, Option.map_some, Option.getD_some]

theorem offset16_position16 (ho : isBoundary s o = true) :
    (ofText s).offset16 s ((ofText s).position16 s o).1 ((ofText s).position16 s o).2 = o := by
  obtain ⟨line, r, before, after, hr, hcontent, rfl, hposition⟩ := exists_position16 ho
  rw [hposition, offset16_eq hr hcontent, String.toList_append, bytesBefore16_width16,
    String.ofList_toList]

/-! ## The order of places -/

theorem offsetIn_of_none (h : t.lineSpan? line = none) (s : String) (column : ℕ)
    (unit : ColumnUnit) : t.offsetIn s line column unit = t.size := by
  cases unit <;> simp only [offsetIn, offset, offset16, h]

/-- A column stays on its line, however great it is. -/
theorem contains_offsetIn (h : (ofText s).lineSpan? line = some r) (column : ℕ)
    (unit : ColumnUnit) : r.contains ((ofText s).offsetIn s line column unit) = true := by
  have hle := (isLine h).le
  rw [Span.contains_iff]
  cases unit with
  | utf8 =>
    rw [offsetIn, offset_eq h]
    omega
  | utf16 =>
    obtain ⟨content, hcontent⟩ := (isLine h).exists_slice?
    have hlength := Span.length_of_slice? hcontent
    have hbytes := bytesBefore16_le content.toList column
    rw [String.ofList_toList] at hbytes
    unfold Span.length at hlength
    rw [offsetIn, offset16_eq h hcontent]
    omega

theorem offsetIn_le_size (s : String) (line column : ℕ) (unit : ColumnUnit) :
    (ofText s).offsetIn s line column unit ≤ Text.size s := by
  rcases h : (ofText s).lineSpan? line with _ | r
  · exact (offsetIn_of_none h s column unit).le
  · exact (Span.contains_iff.1 (contains_offsetIn h column unit)).2.trans (isLine h).stop_le

theorem offsetIn_mono_column (h : (ofText s).lineSpan? line = some r) (hle : column ≤ column')
    (unit : ColumnUnit) :
    (ofText s).offsetIn s line column unit ≤ (ofText s).offsetIn s line column' unit := by
  cases unit with
  | utf8 =>
    rw [offsetIn, offsetIn, offset_eq h, offset_eq h]
    omega
  | utf16 =>
    obtain ⟨content, hcontent⟩ := (isLine h).exists_slice?
    rw [offsetIn, offsetIn, offset16_eq h hcontent, offset16_eq h hcontent]
    exact Nat.add_le_add_left (bytesBefore16_mono _ hle) _

/-- **Order.** Places further on, line by line and then column by column, have offsets further on. -/
theorem offsetIn_monotone (s : String) (unit : ColumnUnit) :
    Monotone fun p : ℕ ×ₗ ℕ => (ofText s).offsetIn s (ofLex p).1 (ofLex p).2 unit := by
  intro p q hpq
  rcases hq : (ofText s).lineSpan? (ofLex q).1 with _ | r'
  · dsimp only
    rw [offsetIn_of_none hq]
    exact offsetIn_le_size s _ _ unit
  rcases Prod.Lex.le_iff.1 hpq with hlt | ⟨heq, hle⟩
  · obtain ⟨r, hr⟩ := exists_lineSpan?_of_lt (lineSpan?_eq_some_iff.1 hq).1 hlt
    have hapart := lineSpan?_apart hr hq hlt
    have hp := Span.contains_iff.1 (contains_offsetIn hr (ofLex p).2 unit)
    have hq := Span.contains_iff.1 (contains_offsetIn hq (ofLex q).2 unit)
    exact hp.2.trans (hapart.le.trans hq.1)
  · dsimp only
    rw [heq]
    exact offsetIn_mono_column hq hle unit

/-- No column of a line reaches the next one. -/
theorem offsetIn_lt_next {next : ℕ} (h : (ofText s).lineStart? (line + 1) = some next)
    (column : ℕ) (unit : ColumnUnit) : (ofText s).offsetIn s line column unit < next := by
  obtain ⟨r, hr⟩ := exists_lineSpan?_of_lt h (Nat.lt_succ_self line)
  have hstop := (Span.contains_iff.1 (contains_offsetIn hr column unit)).2
  rw [(start_next hr h).1]
  exact Nat.lt_succ_of_le hstop

/-- Boundaries further on have places further on. -/
theorem position16_strictMonoOn (s : String) :
    StrictMonoOn (fun o => toLex ((ofText s).position16 s o)) {o | isBoundary s o = true} := by
  intro o ho o' ho' hlt
  by_contra hge
  have hle := offsetIn_monotone s .utf16 (not_lt.1 hge)
  have hback : (ofText s).offset16 s ((ofText s).position16 s o').1 ((ofText s).position16 s o').2 ≤
      (ofText s).offset16 s ((ofText s).position16 s o).1 ((ofText s).position16 s o).2 := hle
  rw [offset16_position16 ho, offset16_position16 ho'] at hback
  omega

/-- **Conversions.** Offsets and places are inverse to each other, in bytes and, on boundaries, in UTF-16
units. Places further on have offsets further on, which stay in the text and on their line, whatever the
column. UTF-16 columns lead to boundaries, and boundaries further on have places further on. -/
theorem conversions (s : String) :
    (∀ o ≤ Text.size s,
      (ofText s).offset ((ofText s).position o).1 ((ofText s).position o).2 = o) ∧
    (∀ line r, (ofText s).lineSpan? line = some r → ∀ column ≤ r.length,
      (ofText s).position ((ofText s).offset line column) = (line, column)) ∧
    (∀ o, isBoundary s o = true →
      (ofText s).offset16 s ((ofText s).position16 s o).1 ((ofText s).position16 s o).2 = o) ∧
    (∀ unit, Monotone fun p : ℕ ×ₗ ℕ => (ofText s).offsetIn s (ofLex p).1 (ofLex p).2 unit) ∧
    (∀ unit line column, (ofText s).offsetIn s line column unit ≤ Text.size s ∧
      ∀ next ∈ (ofText s).lineStart? (line + 1),
        (ofText s).offsetIn s line column unit < next) ∧
    (∀ line column, isBoundary s ((ofText s).offset16 s line column) = true) ∧
    StrictMonoOn (fun o => toLex ((ofText s).position16 s o)) {o | isBoundary s o = true} := by
  refine ⟨fun o => offset_position, fun line r h column => position_offset h,
    fun o => offset16_position16, offsetIn_monotone s, fun unit line column => ?_,
    isBoundary_offset16 s, position16_strictMonoOn s⟩
  exact ⟨offsetIn_le_size s line column unit, fun next h => offsetIn_lt_next h column unit⟩

/-- An accented letter, a character of two UTF-16 units and an empty line. -/
example : (ofText "é😀\n\nz").position16 "é😀\n\nz" 6 = (0, 3) ∧
    (ofText "é😀\n\nz").offset16 "é😀\n\nz" 0 2 = 2 ∧ (ofText "é😀\n\nz").offset 1 7 = 7 := by
  decide +kernel

end LineTable

end Polyglot
