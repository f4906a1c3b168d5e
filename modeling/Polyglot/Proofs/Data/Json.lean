import Polyglot.Proofs.Data.Bracketed
import Polyglot.Proofs.Data.Rows

/-!
# JSON as data

A JSON array or object is a flow collection, and it is read as the data that it was written for
(`Document.ofText_json`). Brackets inside strings are seen neither when its end is looked for
(`extent?_json`) nor when its values are read, so the collection ends where its text does.
-/

namespace Polyglot.Data

open Text Typed Datum

variable {s t : String} {d : Char} {cs ds body : List Char} {i n start : ℕ} {a : Atom}

/-! ## Parts of JSON -/

/-- The property passes from the tokens of JSON to whatever is put together of them. -/
structure IsJsonClosed (P : List Char → Prop) : Prop where
  nil : P []
  append {cs ds : List Char} : P cs → P ds → P (cs ++ ds)
  scalar {a : Atom} {t : String} : a.SpelledBy t → P (octets t)
  comma : P [',']
  colon : P [':']
  sequence {cs : List Char} : P cs → P ('[' :: (cs ++ [']']))
  mapping {cs : List Char} : P cs → P ('\x7b' :: (cs ++ ['\x7d']))

section

variable {P : List Char → Prop}

theorem IsJsonClosed.comma_of {α : Type} (h : IsJsonClosed P) (xs : List α) :
    P (octets (Datum.comma xs)) := by
  rcases xs with _ | ⟨x, xs⟩
  · exact h.nil
  · exact h.comma

mutual

theorem IsJsonClosed.json (h : IsJsonClosed P) : (d : Datum) → P (octets d.json)
  | .atom a => h.scalar a.spelledBy_json
  | .sequence items => by
    rw [Datum.json, octets_append, octets_append]
    exact h.sequence (h.jsonItems items)
  | .mapping pairs => by
    rw [Datum.json, octets_append, octets_append]
    exact h.mapping (h.jsonPairs pairs)

theorem IsJsonClosed.jsonItems (h : IsJsonClosed P) : (items : List Datum) →
    P (octets (Datum.jsonItems items))
  | [] => h.nil
  | d :: ds => by
    rw [Datum.jsonItems, octets_append, octets_append]
    exact h.append (h.append (h.json d) (h.comma_of ds)) (h.jsonItems ds)

theorem IsJsonClosed.jsonPairs (h : IsJsonClosed P) : (pairs : List (String × Datum)) →
    P (octets (Datum.jsonPairs pairs))
  | [] => h.nil
  | (key, d) :: ps => by
    simp only [Datum.jsonPairs, octets_append]
    exact h.append (h.append (h.append (h.append (h.scalar (spelledBy_quote key)) h.colon)
      (h.json d)) (h.comma_of ps)) (h.jsonPairs ps)

end

end

/-! ## Extents -/

/-- In a collection the octets are passed over: what is open in front of them is open behind them. -/
def IsBalanced (cs : List Char) : Prop :=
  ∀ (depth : ℕ) (previous : Option Char) (rest : List Char), ∃ previous' : Option Char,
    extent? (depth + 1) none false previous (cs ++ rest) =
      (extent? (depth + 1) none false previous' rest).map (· + cs.length)

theorem isBalanced_nil : IsBalanced [] := fun depth previous rest =>
  ⟨previous, by rw [List.nil_append]; exact Option.map_id'.symm⟩

theorem IsBalanced.append (hcs : IsBalanced cs) (hds : IsBalanced ds) : IsBalanced (cs ++ ds) := by
  intro depth previous rest
  obtain ⟨previous', hcs⟩ := hcs depth previous (ds ++ rest)
  obtain ⟨previous'', hds⟩ := hds depth previous' rest
  refine ⟨previous'', ?_⟩
  rw [List.append_assoc, hcs, hds, Option.map_map, List.length_append]
  congr 1
  funext k
  show k + ds.length + cs.length = k + (cs.length + ds.length)
  omega

/-- An octet that opens and closes nothing. -/
theorem isBalanced_plain (hd : "\"'[]\x7b\x7d#".toList.contains d = false) : IsBalanced [d] := by
  intro depth previous rest
  refine ⟨some d, ?_⟩
  simp at hd
  obtain ⟨hquote, hsingle, hopen, hclose, hopen', hclose', hhash⟩ := hd
  rw [List.singleton_append, extent?, if_neg Bool.false_ne_true,
    if_neg (by simp [hquote, hsingle]), if_neg (by simp [hopen, hopen']),
    if_neg (by simp [hclose, hclose'])]
  simp [hhash]

theorem isBalanced_word (hds : ds.all isWordChar = true) : IsBalanced ds := by
  induction ds with
  | nil => exact isBalanced_nil
  | cons d ds ih =>
    rw [List.all_cons, Bool.and_eq_true] at hds
    have hne {e : Char} (he : isWordChar e = false) : d ≠ e := ne_of_apply hds.1 he
    have hd : IsBalanced [d] := isBalanced_plain (by
      simp [hne (e := '"') (by decide), hne (e := '\'') (by decide), hne (e := '[') (by decide),
        hne (e := ']') (by decide), hne (e := '\x7b') (by decide), hne (e := '\x7d') (by decide),
        hne (e := '#') (by decide)])
    exact hd.append (ih hds.2)

theorem extent?_between (hd : d ≠ '\\') (depth : ℕ) (previous : Option Char) (rest : List Char) :
    extent? depth (some '"') false previous (d :: rest) =
      (extent? depth (if d = '"' then none else some '"') false (some d) rest).map (· + 1) := by
  rw [extent?.eq_def]
  simp [hd]

theorem extent?_escape (depth : ℕ) (previous : Option Char) (d : Char) (rest : List Char) :
    extent? depth (some '"') false previous ('\\' :: d :: rest) =
      (extent? depth (some '"') false (some d) rest).map (· + 2) := by
  rw [extent?.eq_def]
  simp

/-- Brackets between quotes are not seen. -/
theorem extent?_shielded (hds : IsShielded ds) (depth : ℕ) (previous : Option Char) (rest : List Char) :
    extent? depth (some '"') false previous (ds ++ '"' :: rest) =
      (extent? depth none false (some '"') rest).map (· + (ds.length + 1)) := by
  induction hds generalizing previous with
  | nil => rw [List.nil_append, extent?_between (by decide), if_pos rfl]; rfl
  | @plain d ds hquote hbackslash _ ih =>
    rw [List.cons_append, extent?_between hbackslash, if_neg hquote, ih, Option.map_map]
    rfl
  | @escape d ds _ ih =>
    rw [List.cons_append, List.cons_append, extent?_escape, ih, Option.map_map]
    rfl

theorem isBalanced_quoted (hbody : IsStringBody body) : IsBalanced (octets (quoted body)) := by
  intro depth previous rest
  refine ⟨some '"', ?_⟩
  rw [octets_quoted, List.cons_append, List.append_assoc, List.singleton_append, extent?,
    if_neg Bool.false_ne_true, if_pos (.inl rfl), extent?_shielded (isShielded_octets hbody),
    Option.map_map, List.length_cons, List.length_append]
  rfl

/-- Behind balanced octets the bracket closes what is open. -/
theorem IsBalanced.closed (h : IsBalanced cs) {e : Char} (he : e = ']' ∨ e = '\x7d') (depth : ℕ)
    (previous : Option Char) (rest : List Char) :
    extent? (depth + 1) none false previous (cs ++ e :: rest) =
      (if depth = 0 then some 1 else (extent? depth none false (some e) rest).map (· + 1)).map
        (· + cs.length) := by
  obtain ⟨previous', h⟩ := h depth previous (e :: rest)
  have hquote : ¬ (e = '"' ∨ e = '\'') := by rcases he with rfl | rfl <;> decide
  have hopen : ¬ (e = '[' ∨ e = '\x7b') := by rcases he with rfl | rfl <;> decide
  have hlast : depth + 1 ≤ 1 ↔ depth = 0 := by omega
  rw [h, extent?, if_neg Bool.false_ne_true, if_neg hquote, if_neg hopen, if_pos he,
    Nat.add_sub_cancel]
  simp only [hlast]

theorem extent?_open {b : Char} (hb : b = '[' ∨ b = '\x7b') (depth : ℕ) (previous : Option Char)
    (rest : List Char) : extent? depth none false previous (b :: rest) =
      (extent? (depth + 1) none false (some b) rest).map (· + 1) := by
  have hquote : ¬ (b = '"' ∨ b = '\'') := by rcases hb with rfl | rfl <;> decide
  rw [extent?, if_neg Bool.false_ne_true, if_neg hquote, if_pos hb]

theorem IsBalanced.bracketed (h : IsBalanced cs) {b e : Char} (hb : b = '[' ∨ b = '\x7b')
    (he : e = ']' ∨ e = '\x7d') : IsBalanced (b :: (cs ++ [e])) := by
  intro depth previous rest
  refine ⟨some e, ?_⟩
  rw [List.cons_append, List.append_assoc, List.singleton_append, extent?_open hb, h.closed he,
    if_neg (Nat.succ_ne_zero depth), Option.map_map, Option.map_map, List.length_cons,
    List.length_append]
  congr 1
  funext k
  show k + 1 + cs.length + 1 = k + (cs.length + 1 + 1)
  omega

/-- A balanced collection is its own extent, whatever follows it. -/
theorem IsBalanced.extent? (h : IsBalanced cs) {b e : Char} (hb : b = '[' ∨ b = '\x7b')
    (he : e = ']' ∨ e = '\x7d') (rest : List Char) :
    extent? 0 none false none (b :: (cs ++ [e]) ++ rest) = some (b :: (cs ++ [e])).length := by
  rw [List.cons_append, List.append_assoc, List.singleton_append, extent?_open hb, h.closed he,
    if_pos rfl, List.length_cons, List.length_append]
  show some (1 + cs.length + 1) = some (cs.length + 1 + 1)
  rw [Nat.add_comm 1]

theorem Atom.SpelledBy.isBalanced (h : a.SpelledBy t) : IsBalanced (octets t) := by
  cases h with
  | word hword hvalue =>
    rw [octets_of_isWord hword]
    exact isBalanced_word hword.chars
  | quoted hbody hs => exact isBalanced_quoted hbody

theorem isJsonClosed_isBalanced : IsJsonClosed IsBalanced where
  nil := isBalanced_nil
  append := .append
  scalar := Atom.SpelledBy.isBalanced
  comma := isBalanced_plain (by decide)
  colon := isBalanced_plain (by decide)
  sequence h := h.bracketed (.inl rfl) (.inl rfl)
  mapping h := h.bracketed (.inr rfl) (.inr rfl)

theorem extent?_json {d : Datum} (hd : d.isCollection = true) (rest : List Char) :
    extent? 0 none false none (octets d.json ++ rest) = some (size d.json) := by
  rw [← length_octets]
  cases d with
  | atom a => cases hd
  | sequence items =>
    rw [json, octets_append, octets_append]
    exact (isJsonClosed_isBalanced.jsonItems items).extent? (b := '[') (e := ']') (.inl rfl) (.inl rfl) rest
  | mapping pairs =>
    rw [json, octets_append, octets_append]
    exact (isJsonClosed_isBalanced.jsonPairs pairs).extent? (b := '\x7b') (e := '\x7d') (.inr rfl) (.inr rfl) rest

/-! ## On a line -/

variable {l : Line} {lines : List Line}

/-- The octets from the start of a stretch on, up to its end or farther. -/
theorem exists_octetsAt_eq_append (h : Stretch s start cs) (hn : start + cs.length ≤ n) :
    ∃ ds, octetsAt s ⟨start, n⟩ = cs ++ ds := by
  obtain ⟨ds, hds⟩ := h.octets
  refine ⟨ds.take (n - start - cs.length), ?_⟩
  have hle : cs.length ≤ n - start := by omega
  rw [octetsAt_eq]
  show ((octets s).drop start).take (n - start) = _
  rw [← hds, List.take_append, List.take_of_length_le hle]

theorem octetsAt_stretch (h : Stretch s start cs) : octetsAt s ⟨start, start + cs.length⟩ = cs := by
  rw [octetsAt_eq]
  show ((octets s).drop start).take (start + cs.length - start) = cs
  rw [Nat.add_sub_cancel_left]
  exact (List.prefix_iff_eq_take.1 h.octets).symm

theorem le_flowRegionEnd (parentIndent : ℕ) (h : LinesFrom s i lines) (hn : n ≤ i) :
    n ≤ flowRegionEnd parentIndent n lines := by
  induction lines generalizing i n with
  | nil => exact le_rfl
  | cons l ls ih =>
    have hle : n ≤ l.breakStart := (hn.trans h.1).trans h.2.1.start_le
    unfold flowRegionEnd
    split_ifs
    · exact hle.trans (ih h.2.2 le_rfl)
    · exact hle
    · exact le_rfl

/-- Lines behind a place do not begin in front of it. -/
theorem takeWhile_start_lt (h : LinesFrom s i lines) (hn : n ≤ i) :
    lines.takeWhile (fun l => l.start < n) = [] := by
  rcases lines with _ | ⟨l, ls⟩
  · rfl
  · have hnot : ¬ l.start < n := not_lt.2 (hn.trans h.1)
    rw [List.takeWhile_cons_of_neg (by simpa using hnot)]

/-- A collection that ends with its line. -/
theorem blockFlow_json {d : Datum} (hd : d.isCollection = true) (hkeys : d.HasDistinctKeys)
    (h : Stretch s start (octets d.json)) (hi : start + size d.json ≤ i) (hlines : LinesFrom s i lines)
    (parentIndent : ℕ) : ∃ t, blockFlow s start (octets d.json) parentIndent lines = .ok ⟨t, 0, []⟩ ∧
      t.shape = d.shape true := by
  have hlen := length_octets d.json
  have hstop : flowStop s start (octets d.json) parentIndent lines = start + size d.json := by
    obtain ⟨ds, hds⟩ := exists_octetsAt_eq_append h (le_flowRegionEnd parentIndent hlines (hlen ▸ hi))
    unfold flowStop
    dsimp only
    rw [hds, extent?_json hd]
    rfl
  have hat : octetsAt s ⟨start, start + size d.json⟩ = octets d.json := hlen ▸ octetsAt_stretch h
  have hafter : octetsAt s ⟨start + size d.json, start + size d.json⟩ = [] := by
    rw [octetsAt_eq]
    show List.take (start + size d.json - (start + size d.json)) _ = []
    rw [Nat.sub_self, List.take_zero]
  have hend : flowLineEnd start (octets d.json) (start + size d.json) lines = start + size d.json := by
    rw [flowLineEnd, takeWhile_start_lt hlines hi, hlen]
    rfl
  have hfaces : Cursor.Faces ⟨start, none, octets d.json⟩ s d.json [] :=
    ⟨h, (List.append_nil _).symm⟩
  obtain ⟨t, ht, hshape⟩ := flowTree_json d hkeys hfaces rfl
  refine ⟨t, ?_, hshape⟩
  simp only [blockFlow_eq, hstop, hat, ht, bind, Except.bind, pure, Except.pure, hend, hafter,
    takeWhile_start_lt hlines hi]
  rfl

/-- What the text of a collection begins with. -/
theorem exists_octets_json {d : Datum} (hd : d.isCollection = true) :
    ∃ b cs, octets d.json = b :: cs ∧ (b = '[' ∨ b = '\x7b') := by
  cases d with
  | atom a => cases hd
  | sequence items =>
    rw [json, octets_append, octets_append]
    exact ⟨_, _, rfl, .inl rfl⟩
  | mapping pairs =>
    rw [json, octets_append, octets_append]
    exact ⟨_, _, rfl, .inr rfl⟩

theorem inlineValue_json {d : Datum} (hd : d.isCollection = true) (hkeys : d.HasDistinctKeys)
    (h : Stretch s start (octets d.json)) (hi : start + size d.json ≤ i) (hlines : LinesFrom s i lines)
    (parentIndent : ℕ) : ∃ t, inlineValue s start (octets d.json) parentIndent lines = .ok ⟨t, 0, []⟩ ∧
      t.shape = d.shape true := by
  obtain ⟨t, ht, hshape⟩ := blockFlow_json hd hkeys h hi hlines parentIndent
  obtain ⟨b, cs, hcs, rfl | rfl⟩ := exists_octets_json hd
  all_goals
    rw [hcs] at ht ⊢
    exact ⟨t, ht, hshape⟩

theorem block_json {d : Datum} (hd : d.isCollection = true) (hkeys : d.HasDistinctKeys)
    (hl : l.Lies s) (hcontent : l.content = octets d.json) (hlines : LinesFrom s l.breakStart lines) :
    ∃ t, block s l lines = .ok ⟨t, 0, []⟩ ∧ t.shape = d.shape true := by
  have hstretch := hl.content
  have hend := hl.contentEnd_le
  rw [Line.contentEnd, hcontent, length_octets] at hend
  rw [hcontent] at hstretch
  obtain ⟨t, ht, hshape⟩ := inlineValue_json hd hkeys hstretch hend hlines (l.indent - 1)
  obtain ⟨b, cs, hcs, hb⟩ := exists_octets_json hd
  have hitem : l.isItem = false := by
    rw [Line.isItem, hcontent, hcs]
    rcases hb with rfl | rfl <;> rfl
  have hkey : (findKey? l.content).isSome = false := by
    rw [hcontent, hcs]
    rcases hb with rfl | rfl <;> rfl
  refine ⟨t, ?_, hshape⟩
  rw [block, if_neg (by simp [hitem]), if_neg (by simp [hkey]), hcontent, ht]

/-! ## Documents -/

theorem isJsonClosed_fitsLine : IsJsonClosed FitsLine where
  nil := fitsLine_nil
  append := .append
  scalar := Atom.SpelledBy.fitsLine
  comma := fitsLine_of_all (by decide)
  colon := fitsLine_of_all (by decide)
  sequence h := (@fitsLine_of_all ['['] (by decide)).append
    (h.append (@fitsLine_of_all [']'] (by decide)))
  mapping h := (@fitsLine_of_all ['\x7b'] (by decide)).append
    (h.append (@fitsLine_of_all ['\x7d'] (by decide)))

/-- **JSON.** An array or object that is written as JSON without white space is a document without errors,
and its root has the structure, the keys and the values of it. -/
theorem Document.ofText_json (d : Datum) (hd : d.isCollection = true) (hkeys : d.HasDistinctKeys) :
    ∃ t, Document.ofText d.json = .ok ⟨some t, []⟩ ∧ t.shape = d.shape true := by
  have hrow : ∀ x ∈ [(⟨0, d.json⟩ : Row)], x.IsLine := fun x hx => by
    rw [List.mem_singleton.1 hx]
    exact isJsonClosed_fitsLine.json d
  have htext : joinRows [⟨0, d.json⟩] = d.json := by
    rw [joinRows, List.isEmpty_nil, if_pos rfl, String.append_empty, Row.text]
    rfl
  have hlies : (Row.line 0 ⟨0, d.json⟩).Lies (joinRows [⟨0, d.json⟩]) := by
    have hlines := linesFrom_linesOf (joinRows [⟨0, d.json⟩])
    rw [linesOf_joinRows hrow (List.cons_ne_nil _ _)] at hlines
    exact hlines.2.1
  have hlines : LinesFrom (joinRows [⟨0, d.json⟩]) (Row.line 0 ⟨0, d.json⟩).breakStart [] := trivial
  obtain ⟨t, ht, hshape⟩ := block_json hd hkeys hlies rfl hlines
  obtain ⟨b, cs, hcs, hb⟩ := exists_octets_json hd
  refine ⟨t, ?_, hshape⟩
  rw [← htext]
  refine ofText_joinRows hrow ?_ ht fun l hl => absurd hl List.not_mem_nil
  show (octets d.json).head?.all (· == '#') = false
  rw [hcs]
  rcases hb with rfl | rfl <;> rfl

/-- Delimiters inside keys and texts, empty collections, and the least integer. -/
def Datum.tangled : Datum :=
  .mapping [
    ("]\x7d, \"#\":", .sequence [.atom (.text "[ \\\" \x7b"), .sequence [], .mapping []]),
    ("a", .mapping [("a", .atom (.int (-0x8000000000000000))), ("", .atom .null)]),
    ("é\n'", .sequence [.sequence [.atom (.bool true), .atom (.text "~")]])]

theorem Document.ofText_json_tangled : tangled.isCollection = true ∧ tangled.HasDistinctKeys ∧
    ∃ t, Document.ofText tangled.json = .ok ⟨some t, []⟩ ∧ t.shape = tangled.shape true :=
  have hkeys : tangled.HasDistinctKeys := by
    simp [tangled, HasDistinctKeys, itemsHaveDistinctKeys, pairsHaveDistinctKeys]
  ⟨rfl, hkeys, Document.ofText_json tangled rfl hkeys⟩

example : tangled.json =
    "\x7b\"]\x7d, \\\"#\\\":\":[\"[ \\\\\\\" \x7b\",[],\x7b\x7d]," ++
    "\"a\":\x7b\"a\":-9223372036854775808,\"\":null\x7d,\"é\\n'\":[[true,\"~\"]]\x7d" := by
  decide

end Polyglot.Data
