import Polyglot.Proofs.Data.Spelling

/-!
# Reading values in brackets

A value in a flow collection that is written as JSON is read from its own octets, whatever follows them
(`flowTree_json`). Words end at the delimiter behind them, and between quotes there are no delimiters.
-/

namespace Polyglot.Data

open Text Typed Datum

variable {s t u : String} {c : Cursor} {d : Char} {cs ds rest body : List Char} {n : ℕ} {a : Atom}

/-! ## Places in front of a text -/

namespace Cursor

/-- The text `t` stands at the place, and `rest` follows it in the collection. -/
structure Faces (c : Cursor) (s t : String) (rest : List Char) : Prop where
  stretch : Stretch s c.offset (octets t)
  rest : c.rest = octets t ++ rest

theorem Faces.left (h : c.Faces s (t ++ u) rest) : c.Faces s t (octets u ++ rest) where
  stretch := h.stretch.left
  rest := by rw [h.rest, octets_append, List.append_assoc]

theorem Faces.right (h : c.Faces s (t ++ u) rest) : (c.advance (size t)).Faces s u rest := by
  have hrest := h.left.rest
  have hle : size t ≤ c.rest.length := by
    rw [hrest, List.length_append, length_octets]
    exact Nat.le_add_right _ _
  refine ⟨?_, ?_⟩
  · rw [offset_advance hle]
    exact h.stretch.right
  · show c.rest.drop (size t) = _
    rw [hrest, ← length_octets, List.drop_left]

/-- In front of an octet that is neither a blank nor the sign of a comment nothing is skipped. -/
theorem skip_eq (h : c.rest.head?.any (fun d => !isFlowBlank d && d != '#') = true) :
    c.gap = 0 ∧ c.skip = c := by
  have hgap : c.gap = 0 := by
    unfold gap
    rcases hrest : c.rest with _ | ⟨d, ds⟩
    · rfl
    · rw [hrest, List.head?_cons, Option.any_some, Bool.and_eq_true] at h
      have hblank : isFlowBlank d = false := by simpa using h.1
      have hhash : d ≠ '#' := by simpa using h.2
      simp [flowBlanks, hblank, hhash]
  refine ⟨hgap, ?_⟩
  show c.advance c.gap = c
  rw [hgap]
  simp [advance]

end Cursor

/-! ## First octets -/

/-- The octet begins a scalar: a quote or a word. -/
def beginsScalar (d : Char) : Bool := d == '"' || isWordChar d

/-- The octet begins a value: a bracket or a scalar. -/
def beginsValue (d : Char) : Bool := d == '[' || d == '\x7b' || beginsScalar d

theorem Atom.SpelledBy.beginsScalar (h : a.SpelledBy t) :
    (octets t).head?.any beginsScalar = true := by
  cases h with
  | word hword hvalue =>
    rw [octets_of_isWord hword]
    obtain ⟨d, ds, hds⟩ := List.exists_cons_of_ne_nil hword.ne_nil
    have hd := List.all_eq_true.1 hword.chars d (by rw [hds]; exact List.mem_cons_self)
    simp [hds, Data.beginsScalar, hd]
  | quoted hbody hs =>
    rw [octets_quoted]
    rfl

section Head

variable {p q : Char → Bool}

theorem any_head?_imp (h : cs.head?.any p = true) (hpq : ∀ d, p d = true → q d = true) :
    cs.head?.any q = true := by
  rcases cs with _ | ⟨d, ds⟩
  · cases h
  · exact hpq d h

theorem head?_ne_of_any (h : cs.head?.any p = true) (hd : p d = false) : cs.head? ≠ some d := by
  intro heq
  rw [heq, Option.any_some, hd] at h
  cases h

theorem ne_nil_of_any_head? (h : cs.head?.any p = true) : cs ≠ [] := by
  rintro rfl
  cases h

theorem any_head?_append (h : cs.head?.any p = true) (ds : List Char) :
    (cs ++ ds).head?.any p = true := by
  rcases cs with _ | ⟨c, cs⟩
  · cases h
  · exact h

end Head

theorem beginsValue_of_beginsScalar (d : Char) (h : beginsScalar d = true) : beginsValue d = true := by
  simp [beginsValue, h]

theorem isFlowBlank_of_beginsValue (h : beginsValue d = true) :
    (!isFlowBlank d && d != '#') = true := by
  have hne {e : Char} (he : beginsValue e = false) : d ≠ e := ne_of_apply h he
  simp [isFlowBlank, isBlank, hne (e := ' ') (by decide), hne (e := '\t') (by decide),
    hne (e := '\r') (by decide), hne (e := '\n') (by decide), hne (e := '#') (by decide)]

theorem Cursor.skip_eq_of_beginsValue (h : c.rest.head?.any beginsValue = true) :
    c.gap = 0 ∧ c.skip = c :=
  skip_eq (any_head?_imp h fun _ => isFlowBlank_of_beginsValue)

/-! ## Scalars -/

/-- What may follow a value in a collection, or the end of the collection. -/
def EndsEntry (rest : List Char) : Prop := rest.head?.all (fun d => d == ',' || d == ']' || d == '\x7d') = true

theorem flowPlainLength_word (hds : ds.all isWordChar = true) (hrest : EndsEntry rest)
    (previous : Option Char) : flowPlainLength previous (ds ++ rest) = ds.length := by
  induction ds generalizing previous with
  | nil =>
    rcases rest with _ | ⟨d, rest⟩
    · rfl
    · have hd : (d == ',' || d == ']' || d == '\x7d') = true := hrest
      rw [List.nil_append, flowPlainLength, if_pos]
      · rfl
      · simp only [Bool.or_eq_true, beq_iff_eq] at hd
        rcases hd with (rfl | rfl) | rfl <;> decide
  | cons d ds ih =>
    rw [List.all_cons, Bool.and_eq_true] at hds
    have hne {e : Char} (he : isWordChar e = false) : d ≠ e := ne_of_apply hds.1 he
    have hmark : ¬ ",[]\x7b\x7d\n".toList.contains d = true := by
      simp [hne (e := ',') (by decide), hne (e := '[') (by decide), hne (e := ']') (by decide),
        hne (e := '\x7b') (by decide), hne (e := '\x7d') (by decide), hne (e := '\n') (by decide)]
    rw [List.cons_append, flowPlainLength, if_neg hmark,
      if_neg fun h => hne (e := ':') (by decide) h.1, if_neg fun h => hne (e := '#') (by decide) h.1,
      ih hds.2, List.length_cons]

/-- Nothing is cut off at the end of a word. -/
theorem dropWhile_reverse_word {p : Char → Bool} (hp : ∀ d, isWordChar d = true → p d = false)
    (hds : ds.all isWordChar = true) : ds.reverse.dropWhile p = ds.reverse := by
  rw [List.dropWhile_eq_self_iff]
  intro hpos hblank
  have hmem := List.mem_reverse.1 (List.getElem_mem hpos)
  rw [hp _ (List.all_eq_true.1 hds _ hmem)] at hblank
  cases hblank

theorem isFlowBlank_of_isWordChar (h : isWordChar d = true) : isFlowBlank d = false := by
  have hvalue : beginsValue d = true := by simp [beginsValue, beginsScalar, h]
  have hblank := isFlowBlank_of_beginsValue hvalue
  rw [Bool.and_eq_true] at hblank
  simpa using hblank.1

theorem flowKey_quoted (hbody : IsStringBody body) (ht : unescapeList body = t.toList)
    (h : c.Faces s (quoted body) rest) :
    ∃ x, flowKey s c = .ok ⟨x, size (quoted body), []⟩ ∧ x.value = .text t := by
  obtain ⟨x, hx, hvalue⟩ := quotedScalar_quoted hbody ht h.stretch rest
  refine ⟨x, ?_, hvalue⟩
  rw [flowKey, h.rest, if_pos (by rw [octets_quoted]; rfl), hx]

theorem flowKey_spelled (ha : a.SpelledBy t) (h : c.Faces s t rest) (hrest : EndsEntry rest) :
    ∃ x, flowKey s c = .ok ⟨x, size t, []⟩ ∧ x.value = a.value := by
  cases ha with
  | quoted hbody hs => exact flowKey_quoted hbody hs h
  | word hword hvalue =>
    have hoctets := octets_of_isWord hword
    have hsize : t.toList.length = size t := by rw [← hoctets, length_octets]
    have hplain : flowPlainLength none (octets t ++ rest) = size t := by
      rw [hoctets, flowPlainLength_word hword.chars hrest, hsize]
    have hkept : ((octets t ++ rest).take (size t)).reverse.dropWhile isFlowBlank =
        (octets t).reverse := by
      rw [← length_octets, List.take_left, hoctets,
        dropWhile_reverse_word (fun d => isFlowBlank_of_isWordChar) hword.chars]
    have hquote : ¬ ((octets t ++ rest).head?.any fun q => q == '"' || q == '\'') = true := by
      rw [hoctets]
      obtain ⟨d, ds, hds⟩ := List.exists_cons_of_ne_nil hword.ne_nil
      have hd := List.all_eq_true.1 hword.chars d (by rw [hds]; exact List.mem_cons_self)
      have hne {e : Char} (he : isWordChar e = false) : d ≠ e := ne_of_apply hd he
      simp [hds, hne (e := '"') (by decide), hne (e := '\'') (by decide)]
    refine ⟨⟨.ofPlain t, .plain, .withLength c.offset (size t), t⟩, ?_, hvalue⟩
    rw [flowKey, h.rest, if_neg hquote, flowPlain, h.rest, hplain]
    simp only [hkept, List.length_reverse, length_octets]
    rw [plainScalar, tokenText, h.stretch.slice?]
    rfl

/-! ## Entries -/

theorem beginsValue_json (d : Datum) : (octets d.json).head?.any beginsValue = true := by
  cases d with
  | atom a => exact any_head?_imp a.spelledBy_json.beginsScalar beginsValue_of_beginsScalar
  | sequence items => rw [json, octets_append, octets_append]; rfl
  | mapping pairs => rw [json, octets_append, octets_append]; rfl

/-- A bracket is met where it stands. -/
theorem Cursor.Faces.bracket {b : String} (h : c.Faces s (b ++ u) rest) (hb : octets b = [d])
    (hd : (!isFlowBlank d && d != '#') = true) :
    c.gap = 0 ∧ c.skip = c ∧ c.rest ≠ [] ∧ c.rest.head? = some d := by
  have hrest : c.rest = d :: (octets u ++ rest) := by
    rw [h.left.rest, hb]
    rfl
  obtain ⟨hgap, hskip⟩ := c.skip_eq (by rw [hrest]; exact hd)
  refine ⟨hgap, hskip, ?_, ?_⟩ <;> rw [hrest]
  · exact List.cons_ne_nil _ _
  · rfl

/-- The closing bracket `b`, whose octet is `d`. -/
structure IsCloser (b : String) (d : Char) : Prop where
  octets : octets b = [d]
  eq : d = ']' ∨ d = '\x7d'

theorem isCloser_sequence : IsCloser "]" ']' := ⟨rfl, .inl rfl⟩

theorem isCloser_mapping : IsCloser "\x7d" '\x7d' := ⟨rfl, .inr rfl⟩

theorem IsCloser.isSolid {b : String} (hb : IsCloser b d) : (!isFlowBlank d && d != '#') = true := by
  rcases hb.eq with rfl | rfl <;> decide

/-- Behind an entry stands a comma, or the closing bracket. -/
theorem endsEntry_comma {α : Type} {xs : List α} {b : String} (hb : IsCloser b d)
    (hu : xs = [] → u = "") (rest : List Char) :
    EndsEntry (octets (comma xs ++ (u ++ b)) ++ rest) := by
  rcases xs with _ | ⟨x, xs⟩
  · rw [hu rfl, octets_append, octets_append, hb.octets]
    rcases hb.eq with rfl | rfl <;> rfl
  · rw [octets_append]
    rfl

theorem finishEntry_comma {α : Type} {xs : List α} {b : String} (hb : IsCloser b d)
    (hu : xs = [] → u = "") (h : c.Faces s (comma xs ++ (u ++ b)) rest) :
    finishEntry c d = ⟨(), size (comma xs), []⟩ := by
  rcases xs with _ | ⟨x, xs⟩
  · have hrest : c.rest = d :: rest := by
      rw [h.rest, hu rfl, octets_append, octets_append, hb.octets]
      rfl
    obtain ⟨hgap, -⟩ := c.skip_eq (by rw [hrest]; exact hb.isSolid)
    have hcomma : d ≠ ',' := by rcases hb.eq with rfl | rfl <;> decide
    simp only [finishEntry_eq, hgap, hrest, List.drop_zero, if_neg hcomma, if_true]
    rfl
  · have hrest : c.rest = ',' :: (octets (u ++ b) ++ rest) := by
      rw [h.rest, octets_append]
      rfl
    obtain ⟨hgap, -⟩ := c.skip_eq (by rw [hrest]; rfl)
    rw [finishEntry_eq, hgap, hrest]
    rfl

theorem jsonItems_of_nil {items : List Datum} (h : items = []) : jsonItems items = "" := by
  rw [h, jsonItems]

theorem jsonPairs_of_nil {pairs : List (String × Datum)} (h : pairs = []) : jsonPairs pairs = "" := by
  rw [h, jsonPairs]

theorem size_pos_of_beginsValue (h : (octets t).head?.any beginsValue = true) : 1 ≤ size t := by
  rw [← length_octets]
  exact List.length_pos_iff.2 (ne_nil_of_any_head? h)

/-- Behind a colon stands the value. -/
theorem flowValue_colon {x : Tree} (h : c.Faces s (":" ++ u) rest)
    (ht : flowTree s (c.advance 1) = .ok ⟨x, n, []⟩) : flowValue s c = .ok ⟨x, 1 + n, []⟩ := by
  obtain ⟨hgap, hskip, -, hhead⟩ := h.bracket (d := ':') rfl (by decide)
  rw [flowValue, hskip, hgap, if_pos hhead, ht]
  rfl

/-! ## Collections -/

/-- The keys of the other pairs are not among those seen when one more is. -/
theorem quote_notMem_cons {key : String} {d : Datum} {ps : List (String × Datum)} {seen : List String}
    (hnodup : (((key, d) :: ps).map Prod.fst).Nodup)
    (hseen : ∀ p ∈ (key, d) :: ps, quote p.1 ∉ seen) : ∀ p ∈ ps, quote p.1 ∉ quote key :: seen := by
  intro p hp hmem
  rcases List.mem_cons.1 hmem with heq | hmem
  · have hmem : p.1 ∈ ps.map Prod.fst := List.mem_map_of_mem hp
    rw [quote_injective heq] at hmem
    exact (List.nodup_cons.1 hnodup).1 hmem
  · exact hseen p (List.mem_cons_of_mem _ hp) hmem

mutual

/-- **Values.** A value in a collection is read from its text, whatever stands behind it. -/
theorem flowTree_json : (d : Datum) → d.HasDistinctKeys → ∀ {c : Cursor} {rest : List Char},
    c.Faces s d.json rest → EndsEntry rest →
      ∃ t, flowTree s c = .ok ⟨t, size d.json, []⟩ ∧ t.shape = d.shape true
  | .atom a, _, c, rest, h, hrest => by
    have hfirst : c.rest.head?.any beginsScalar = true := by
      rw [h.rest]
      exact any_head?_append a.spelledBy_json.beginsScalar rest
    obtain ⟨hgap, hskip⟩ := Cursor.skip_eq_of_beginsValue
      (any_head?_imp hfirst beginsValue_of_beginsScalar)
    obtain ⟨x, hx, hvalue⟩ := flowKey_spelled a.spelledBy_json h hrest
    refine ⟨.scalar x, ?_, by rw [Tree.shape, Datum.shape, hvalue]⟩
    rw [flowTree_eq, hskip, hgap, if_neg (ne_nil_of_any_head? hfirst),
      if_neg (head?_ne_of_any hfirst (by decide)), if_neg (head?_ne_of_any hfirst (by decide)), hx,
      json]
    simp [bind, Except.bind, pure, Except.pure]
  | .sequence items, hkeys, c, rest, h, _ => by
    rw [json, String.append_assoc] at h
    obtain ⟨hgap, hskip, hne, hhead⟩ := h.bracket (d := '[') rfl (by decide)
    obtain ⟨ts, hts, hshapes⟩ := flowItems_json c.offset items hkeys h.right
    have hts : flowItems s c.offset (c.advance 1) = _ := hts
    refine ⟨.sequence true (.withLength c.offset (1 + (size (jsonItems items) + 1))) ts, ?_,
      by rw [Tree.shape, Datum.shape, Bool.true_or, hshapes]⟩
    rw [flowTree_eq, hskip, hgap, if_neg hne, if_pos hhead, hts, json,
      size_append, size_append]
    simp only [bind, Except.bind, pure, Except.pure, Nat.zero_add, Nat.add_assoc]
    rfl
  | .mapping pairs, hkeys, c, rest, h, _ => by
    rw [json, String.append_assoc] at h
    obtain ⟨hgap, hskip, hne, hhead⟩ := h.bracket (d := '\x7b') rfl (by decide)
    obtain ⟨ts, hts, hshapes⟩ := flowPairs_json c.offset pairs [] hkeys.2 hkeys.1
      (fun p _ => List.not_mem_nil) h.right
    have hts : flowPairs s c.offset [] (c.advance 1) = _ := hts
    refine ⟨.mapping true (.withLength c.offset (1 + (size (jsonPairs pairs) + 1))) ts, ?_,
      by rw [Tree.shape, Datum.shape, Bool.true_or, hshapes]⟩
    rw [flowTree_eq, hskip, hgap, if_neg hne,
      if_neg (by rw [hhead]; decide), if_pos hhead, hts, json, size_append, size_append]
    simp only [bind, Except.bind, pure, Except.pure, Nat.zero_add, Nat.add_assoc]
    rfl

theorem flowItems_json (opened : ℕ) : (items : List Datum) → itemsHaveDistinctKeys items →
    ∀ {c : Cursor} {rest : List Char}, c.Faces s (jsonItems items ++ "]") rest →
      ∃ ts, flowItems s opened c = .ok ⟨ts, size (jsonItems items) + 1, []⟩ ∧
        shapesOfItems ts = itemShapes true items
  | [], _, c, rest, h => by
    rw [jsonItems, String.empty_append, ← String.append_empty (s := "]")] at h
    obtain ⟨hgap, hskip, hne, hhead⟩ := h.bracket (d := ']') rfl (by decide)
    refine ⟨[], ?_, rfl⟩
    rw [flowItems_eq, hskip, hgap, if_neg hne, if_pos hhead]
    rfl
  | d :: ds, hkeys, c, rest, h => by
    rw [jsonItems, String.append_assoc, String.append_assoc] at h
    have hfirst : c.rest.head?.any beginsValue = true := by
      rw [h.left.rest]
      exact any_head?_append (beginsValue_json d) _
    obtain ⟨hgap, hskip⟩ := Cursor.skip_eq_of_beginsValue hfirst
    obtain ⟨t, ht, hshape⟩ := flowTree_json d hkeys.1 h.left
      (endsEntry_comma isCloser_sequence jsonItems_of_nil rest)
    have hfinish := finishEntry_comma isCloser_sequence jsonItems_of_nil h.right
    obtain ⟨ts, hts, hshapes⟩ := flowItems_json opened ds hkeys.2 h.right.right
    have hpos := size_pos_of_beginsValue (beginsValue_json d)
    refine ⟨t :: ts, ?_, by rw [shapesOfItems, itemShapes, hshape, hshapes]⟩
    rw [Cursor.advance_advance] at hts
    have hstep : max 1 (size d.json + size (comma ds)) = size d.json + size (comma ds) := by omega
    rw [flowItems_eq, hskip, hgap, if_neg (ne_nil_of_any_head? hfirst),
      if_neg (head?_ne_of_any hfirst (by decide)), if_neg (head?_ne_of_any hfirst (by decide)), ht]
    simp only [bind, Except.bind, pure, Except.pure, hfinish, hstep, hts, jsonItems, size_append]
    simp
    omega

theorem flowPairs_json (opened : ℕ) : (pairs : List (String × Datum)) → (seen : List String) →
    pairsHaveDistinctKeys pairs → (pairs.map Prod.fst).Nodup →
    (∀ p ∈ pairs, quote p.1 ∉ seen) → ∀ {c : Cursor} {rest : List Char},
      c.Faces s (jsonPairs pairs ++ "\x7d") rest →
      ∃ ts, flowPairs s opened seen c = .ok ⟨ts, size (jsonPairs pairs) + 1, []⟩ ∧
        shapesOfPairs ts = pairShapes true pairs
  | [], _, _, _, _, c, rest, h => by
    rw [jsonPairs, String.empty_append, ← String.append_empty (s := "\x7d")] at h
    obtain ⟨hgap, hskip, hne, hhead⟩ := h.bracket (d := '\x7d') rfl (by decide)
    refine ⟨[], ?_, rfl⟩
    rw [flowPairs_eq, hskip, hgap, if_neg hne, if_pos hhead]
    rfl
  | (key, d) :: ps, seen, hkeys, hnodup, hseen, c, rest, h => by
    simp only [jsonPairs, String.append_assoc] at h
    have hfirst : c.rest.head?.any beginsScalar = true := by
      rw [h.left.rest]
      exact any_head?_append (spelledBy_quote key).beginsScalar _
    obtain ⟨hgap, hskip⟩ := Cursor.skip_eq_of_beginsValue
      (any_head?_imp hfirst beginsValue_of_beginsScalar)
    have hquote := quote_eq key
    obtain ⟨x, hx, hx'⟩ := flowKey_quoted (isStringBody_quoteBody key)
      (unescapeList_quoteBody key) (hquote ▸ h.left)
    rw [← hquote] at hx
    have hkey : x.key = quote key := congrArg Value.key hx'
    obtain ⟨t, ht, hshape⟩ := flowTree_json d hkeys.1 h.right.right.left
      (endsEntry_comma isCloser_mapping jsonPairs_of_nil rest)
    have hvalue := flowValue_colon h.right ht
    have hfinish := finishEntry_comma isCloser_mapping jsonPairs_of_nil h.right.right.right
    obtain ⟨ts, hts, hshapes⟩ := flowPairs_json opened ps (quote key :: seen) hkeys.2
      (List.nodup_cons.1 hnodup).2 (quote_notMem_cons hnodup hseen) h.right.right.right.right
    have hcolon : size ":" = 1 := rfl
    simp only [Cursor.advance_advance, hcolon] at hvalue hfinish hts
    have hfresh : duplicateErrors seen x = [] := by
      have hnot := hseen _ List.mem_cons_self
      rw [duplicateErrors, hkey, if_neg (by simpa using hnot)]
    refine ⟨(x, t) :: ts, ?_, by rw [shapesOfPairs, pairShapes, hx', hshape, hshapes]⟩
    rw [flowPairs_eq, hskip, hgap, if_neg (ne_nil_of_any_head? hfirst),
      if_neg (head?_ne_of_any hfirst (by decide)), if_neg (head?_ne_of_any hfirst (by decide)), hx]
    have hstep : max 1 (size (quote key) + 1 + size d.json + size (comma ps)) =
        size (quote key) + 1 + size d.json + size (comma ps) := by omega
    simp only [bind, Except.bind, pure, Except.pure, hvalue, hkey, ← Nat.add_assoc, hfinish, hstep,
      hts, hfresh, jsonPairs, size_append, hcolon]
    simp

end

end Polyglot.Data
