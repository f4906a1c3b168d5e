import Polyglot.Proofs.Data.Reading

/-!
# Reading flow collections

A flow reader that stands at a boundary gets to a boundary, and all spans that it gives fit. The one
exception is recovery behind an entry: it goes on one octet later, and in front of a longer
character this tears the character. The next reading step then fails (`flowItems_torn`,
`flowPairs_torn`); so in ASCII text every collection is read.
-/

namespace Polyglot.Data

open Text

variable {s : String} {c : Cursor} {i k opened : ℕ} {cs : List Char}

/-! ## One step -/

namespace Cursor

/-- The blanks and comments in front of a place. -/
def gap (c : Cursor) : ℕ := flowBlanks false c.previous c.rest

theorem gap_le (c : Cursor) : c.gap ≤ c.rest.length := isSeam_flowBlanks.le_length

theorem offset_advance (h : k ≤ c.rest.length) : (c.advance k).offset = c.offset + k := by
  unfold advance
  rw [Nat.min_eq_left h]

theorem offset_skip (c : Cursor) : c.skip.offset = c.offset + c.gap := offset_advance c.gap_le

/-- The place in the shadow. -/
def shade (c : Cursor) : Cursor := ⟨c.offset, c.previous.map Text.shade, c.rest.map Text.shade⟩

@[simp] theorem gap_shade (c : Cursor) : c.shade.gap = c.gap := flowBlanks_shade ..

@[simp] theorem stop_shade (c : Cursor) : c.shade.stop = c.stop := by
  rw [stop, shade, List.length_map, stop]

theorem advance_shade (c : Cursor) (k : ℕ) : c.shade.advance k = (c.advance k).shade := by
  simp only [advance, shade, List.length_map, ← List.map_take, ← List.map_drop, List.getLast?_map,
    Option.map_or]

theorem skip_shade (c : Cursor) : c.shade.skip = c.skip.shade := by
  show c.shade.advance c.shade.gap = (c.advance c.gap).shade
  rw [gap_shade, advance_shade]

theorem advance_advance (c : Cursor) (j k : ℕ) : (c.advance j).advance k = c.advance (j + k) := by
  unfold advance
  simp only [mk.injEq, List.length_drop, List.drop_drop, and_true]
  refine ⟨by omega, ?_⟩
  rw [List.take_add, List.getLast?_append, Option.or_assoc]

end Cursor

theorem flowTree_eq (s : String) (c : Cursor) : flowTree s c =
    if c.skip.rest = [] then .ok ⟨.scalar (.missing c.skip.offset), c.gap, []⟩
    else if c.skip.rest.head? = some '[' then do
      let items ← flowItems s c.skip.offset (c.skip.advance 1)
      return ⟨.sequence true (.withLength c.skip.offset (1 + items.used)) items.value,
        c.gap + 1 + items.used, items.errors⟩
    else if c.skip.rest.head? = some '\x7b' then do
      let pairs ← flowPairs s c.skip.offset [] (c.skip.advance 1)
      return ⟨.mapping true (.withLength c.skip.offset (1 + pairs.used)) pairs.value,
        c.gap + 1 + pairs.used, pairs.errors⟩
    else do
      let scalar ← flowKey s c.skip
      return ⟨.scalar scalar.value, c.gap + scalar.used, scalar.errors⟩ := by
  rw [flowTree]
  split
  · next h =>
    have h : c.skip.rest = [] := h
    rw [if_pos h]; rfl
  · next h =>
    have h : c.skip.rest = _ := h
    rw [if_neg (by simp [h]), if_pos (by simp [h])]; rfl
  · next h =>
    have h : c.skip.rest = _ := h
    rw [if_neg (by simp [h]), if_neg (by simp [h]), if_pos (by simp [h])]; rfl
  · next h1 h2 h =>
    have h : c.skip.rest = _ := h
    rw [if_neg (by simp [h]), if_neg (by simpa [h] using h1), if_neg (by simpa [h] using h2)]; rfl

theorem flowItems_eq (s : String) (opened : ℕ) (c : Cursor) : flowItems s opened c =
    if c.skip.rest = [] then .ok ⟨[], c.gap, [⟨.unterminatedFlow, ⟨opened, c.stop⟩⟩]⟩
    else if c.skip.rest.head? = some ']' then .ok ⟨[], c.gap + 1, []⟩
    else if c.skip.rest.head? = some ',' then do
      let more ← flowItems s opened (c.skip.advance 1)
      return ⟨more.value, c.gap + 1 + more.used, more.errors⟩
    else do
      let item ← flowTree s c.skip
      let finish := finishEntry (c.skip.advance item.used) ']'
      let step := max 1 (item.used + finish.used)
      let more ← flowItems s opened (c.skip.advance step)
      return ⟨item.value :: more.value, c.gap + step + more.used,
        item.errors ++ finish.errors ++ more.errors⟩ := by
  rw [flowItems]
  split
  · next h =>
    have h : c.skip.rest = [] := h
    rw [if_pos h]; rfl
  · next h =>
    have h : c.skip.rest = _ := h
    rw [if_neg (by simp [h]), if_pos (by simp [h])]; rfl
  · next h =>
    have h : c.skip.rest = _ := h
    rw [if_neg (by simp [h]), if_neg (by simp [h]), if_pos (by simp [h])]; rfl
  · next h1 h2 h =>
    have h : c.skip.rest = _ := h
    rw [if_neg (by simp [h]), if_neg (by simpa [h] using h1), if_neg (by simpa [h] using h2)]; rfl

/-- The value of a pair, from the end of its key on. -/
def flowValue (s : String) (c : Cursor) : Except TornCharacter (Taken Tree) :=
  if c.skip.rest.head? = some ':' then
    (flowTree s (c.skip.advance 1)).map fun t => { t with used := c.gap + 1 + t.used }
  else .ok ⟨.scalar (.missing c.skip.offset), c.gap, []⟩

theorem flowPairs_eq (s : String) (opened : ℕ) (seen : List String) (c : Cursor) :
    flowPairs s opened seen c =
    if c.skip.rest = [] then .ok ⟨[], c.gap, [⟨.unterminatedFlow, ⟨opened, c.stop⟩⟩]⟩
    else if c.skip.rest.head? = some '\x7d' then .ok ⟨[], c.gap + 1, []⟩
    else if c.skip.rest.head? = some ',' then do
      let more ← flowPairs s opened seen (c.skip.advance 1)
      return ⟨more.value, c.gap + 1 + more.used, more.errors⟩
    else do
      let key ← flowKey s c.skip
      let value ← flowValue s (c.skip.advance key.used)
      let finish := finishEntry (c.skip.advance (key.used + value.used)) '\x7d'
      let step := max 1 (key.used + value.used + finish.used)
      let more ← flowPairs s opened (key.value.key :: seen) (c.skip.advance step)
      return ⟨(key.value, value.value) :: more.value, c.gap + step + more.used,
        key.errors ++ value.errors ++ duplicateErrors seen key.value ++ finish.errors ++
          more.errors⟩ := by
  rw [flowPairs]
  split
  · next h =>
    have h : c.skip.rest = [] := h
    rw [if_pos h]; rfl
  · next h =>
    have h : c.skip.rest = _ := h
    rw [if_neg (by simp [h]), if_pos (by simp [h])]; rfl
  · next h =>
    have h : c.skip.rest = _ := h
    rw [if_neg (by simp [h]), if_neg (by simp [h]), if_pos (by simp [h])]; rfl
  · next h1 h2 h =>
    have h : c.skip.rest = _ := h
    rw [if_neg (by simp [h]), if_neg (by simpa [h] using h1), if_neg (by simpa [h] using h2)]
    apply bind_congr
    intro key
    -- the place behind the colon, from the start of the pair and from the end of its key
    have hcolon : (c.skip.advance key.used).skip.offset - (c.skip.advance key.used).offset =
        (c.skip.advance key.used).gap := by
      rw [Cursor.offset_skip, Nat.add_sub_cancel_left]
    have hvalue : c.skip.advance (key.used + (c.skip.advance key.used).gap + 1) =
        (c.skip.advance key.used).skip.advance 1 := by
      show _ = ((c.skip.advance key.used).advance (c.skip.advance key.used).gap).advance 1
      rw [Cursor.advance_advance, Cursor.advance_advance, Nat.add_assoc]
    have hused (n : ℕ) : key.used + (c.skip.advance key.used).gap + (n + 1) =
        key.used + ((c.skip.advance key.used).gap + 1 + n) := by omega
    simp only [← Cursor.skip.eq_1, hcolon]
    rw [hvalue, flowValue]
    split_ifs
    · rcases flowTree s ((c.skip.advance key.used).skip.advance 1) with e | t
      · rfl
      · simp only [Except.map, bind, Except.bind, hused]
        rfl
    · rfl

/-! ## Stepping and tearing -/

theorem Cursor.stretch_advance (h : Stretch s c.offset c.rest) (hk : k ≤ c.rest.length)
    (hb : isBoundary s (c.offset + k) = true) :
    Stretch s (c.advance k).offset (c.advance k).rest := by
  rw [offset_advance hk]
  exact h.drop hb hk

theorem Cursor.stretch_skip (h : Stretch s c.offset c.rest) : Stretch s c.skip.offset c.skip.rest :=
  stretch_advance h c.gap_le (h.isBoundary isSeam_flowBlanks)

/-- A reader inside a character: in front of it stands an octet that is not ASCII. -/
structure Torn (s : String) (i : ℕ) (cs : List Char) : Prop where
  offset : ¬ isBoundary s i = true
  head : ∃ d t, cs = d :: t ∧ ¬ IsAsciiOctet d
  text : ¬ IsAscii s

/-- One octet further on is a boundary behind ASCII, and inside a character behind anything else. -/
theorem torn_tail {d : Char} (h : Stretch s i (d :: cs)) (hd : ¬ IsAsciiOctet d) :
    Torn s (i + 1) cs := by
  have hnot : ¬ isBoundary s (i + 1) = true :=
    not_isBoundary_succ h.start (h.octet? (k := 0) rfl) hd
  refine ⟨hnot, ?_, fun hs => ?_⟩
  · rcases cs with _ | ⟨e, t⟩
    · exact absurd h.stop hnot
    · exact ⟨e, t, rfl, fun he => hnot (isBoundary_of_ascii (h.octet? (k := 1) rfl) he)⟩
  · have hget := h.octet? (k := 0) rfl
    rw [octet?_eq_octets] at hget
    exact hd (hs d (List.mem_of_getElem? hget))

theorem Cursor.torn_advance (h : Torn s (c.offset + k) (c.rest.drop k)) (hk : k ≤ c.rest.length) :
    Torn s (c.advance k).offset (c.advance k).rest := by
  rw [offset_advance hk]
  exact h

theorem Torn.gap (h : Torn s i c.rest) : c.gap = 0 := by
  obtain ⟨d, t, hd, hnot⟩ := h.head
  have hblank : ¬ isFlowBlank d = true := fun hb => hnot (isAsciiOctet_of_isFlowBlank hb)
  have hhash : ¬ (d = '#' ∧ c.previous.any isFlowBlank = true) := fun h => hnot (h.1 ▸ by decide)
  rw [Cursor.gap, hd, flowBlanks, if_neg (by simp), if_neg hblank, if_neg hhash]

theorem Torn.skip (h : Torn s i c.rest) : c.skip = c := by
  show c.advance c.gap = c
  rw [h.gap]
  simp [Cursor.advance]

theorem Torn.head?_ne {d : Char} (h : Torn s i cs) (hd : IsAsciiOctet d) : cs.head? ≠ some d := by
  obtain ⟨e, t, rfl, he⟩ := h.head
  rintro ⟨⟩
  exact he hd

theorem Torn.ne_nil (h : Torn s i cs) : cs ≠ [] := by
  obtain ⟨d, t, rfl, -⟩ := h.head
  exact List.cons_ne_nil d t

theorem flowKey_torn (h : Torn s c.offset c.rest) : ∃ e, flowKey s c = .error e := by
  obtain ⟨d, t, hd, hnot⟩ := h.head
  have hquote : ¬ (c.rest.head?.any fun q => q == '"' || q == '\'') = true := by
    rw [hd]
    simp only [List.head?_cons, Option.any_some, Bool.or_eq_true, beq_iff_eq]
    rintro (rfl | rfl) <;> exact hnot (by decide)
  rw [flowKey, if_neg hquote, flowPlain]
  rw [plainScalar_eq_error (r := .withLength c.offset _) h.offset]
  exact ⟨_, rfl⟩

theorem flowTree_torn (h : Torn s c.offset c.rest) : ∃ e, flowTree s c = .error e := by
  obtain ⟨e, he⟩ := flowKey_torn h
  rw [flowTree_eq, h.skip, if_neg h.ne_nil, if_neg (h.head?_ne (by decide)),
    if_neg (h.head?_ne (by decide)), he]
  exact ⟨e, rfl⟩

theorem flowItems_torn (opened : ℕ) (h : Torn s c.offset c.rest) :
    ∃ e, flowItems s opened c = .error e := by
  obtain ⟨e, he⟩ := flowTree_torn h
  rw [flowItems_eq, h.skip, if_neg h.ne_nil, if_neg (h.head?_ne (by decide)),
    if_neg (h.head?_ne (by decide)), he]
  exact ⟨e, rfl⟩

theorem flowPairs_torn (opened : ℕ) (seen : List String) (h : Torn s c.offset c.rest) :
    ∃ e, flowPairs s opened seen c = .error e := by
  obtain ⟨e, he⟩ := flowKey_torn h
  rw [flowPairs_eq, h.skip, if_neg h.ne_nil, if_neg (h.head?_ne (by decide)),
    if_neg (h.head?_ne (by decide)), he]
  exact ⟨e, rfl⟩

/-! ## Ends of entries -/

/-- A step over `k` of the octets: it ends at a boundary and its errors fit, or it tears a character
and one of its errors cuts that character. -/
def Lands (s : String) (i : ℕ) (cs : List Char) (k : ℕ) (errors : List Error) : Prop :=
  k ≤ cs.length ∧
    (isBoundary s (i + k) = true ∧ (∀ e ∈ errors, e.span.Fits s) ∨
      Torn s (i + k) (cs.drop k) ∧ ∃ e ∈ errors, ¬ e.span.Fits s)

theorem finishEntry_eq (c : Cursor) (closer : Char) : finishEntry c closer =
    match c.rest.drop c.gap with
    | [] => ⟨(), c.gap, []⟩
    | d :: _ =>
      if d = ',' then ⟨(), c.gap + 1, []⟩
      else if d = closer then ⟨(), c.gap, []⟩
      else ⟨(), c.gap + 1, [⟨.unexpectedContent, .withLength (c.offset + c.gap) 1⟩]⟩ := rfl

theorem lands_finishEntry (closer : Char) (h : Stretch s c.offset c.rest) :
    Lands s c.offset c.rest (finishEntry c closer).used (finishEntry c closer).errors := by
  have hskip : Stretch s (c.offset + c.gap) (c.rest.drop c.gap) :=
    h.drop (h.isBoundary isSeam_flowBlanks) c.gap_le
  have hle := c.gap_le
  rw [finishEntry_eq]
  rcases hd : c.rest.drop c.gap with _ | ⟨d, t⟩
  · exact ⟨hle, Or.inl ⟨hskip.start, forall_errors_nil⟩⟩
  · have hlen : c.gap + 1 ≤ c.rest.length := by
      have := congrArg List.length hd
      rw [List.length_drop, List.length_cons] at this
      omega
    have hdrop : c.rest.drop (c.gap + 1) = t := by rw [← List.drop_drop, hd]; rfl
    rw [hd] at hskip
    have hascii (hd : IsAsciiOctet d) : isBoundary s (c.offset + (c.gap + 1)) = true :=
      hskip.isBoundary (.after (n := 0) rfl hd)
    dsimp only
    split_ifs with hcomma hclose
    · exact ⟨hlen, Or.inl ⟨hascii (hcomma ▸ by decide), forall_errors_nil⟩⟩
    · exact ⟨hle, Or.inl ⟨hskip.start, forall_errors_nil⟩⟩
    · refine ⟨hlen, ?_⟩
      by_cases hd : IsAsciiOctet d
      · refine Or.inl ⟨hascii hd, fun e he => ?_⟩
        obtain rfl := List.mem_singleton.1 he
        exact Span.fits_withLength hskip.start (hascii hd)
      · have htorn := torn_tail hskip hd
        refine Or.inr ⟨?_, _, List.mem_singleton_self _, fun hfit => htorn.offset hfit.2.2⟩
        rw [hdrop]
        exact htorn

/-- Nothing is taken only in front of an ASCII octet, or at the end. -/
def Moves (cs : List Char) (used : ℕ) : Prop := ∀ d t, cs = d :: t → used = 0 → IsAsciiOctet d

/-- From one entry to the next. -/
theorem lands_entry (closer : Char) {used : ℕ} (h : Stretch s c.offset c.rest) (hne : c.rest ≠ [])
    (hle : used ≤ c.rest.length) (hb : isBoundary s (c.offset + used) = true)
    (hmoves : Moves c.rest used) :
    Lands s c.offset c.rest (max 1 (used + (finishEntry (c.advance used) closer).used))
      (finishEntry (c.advance used) closer).errors := by
  have hfinish := lands_finishEntry closer (c.stretch_advance h hle hb)
  generalize finishEntry (c.advance used) closer = finish at hfinish ⊢
  obtain ⟨hlen, hlands⟩ := hfinish
  rw [Cursor.length_rest_advance] at hlen
  rw [Cursor.offset_advance hle, Nat.add_assoc] at hlands
  have hpos : 0 < c.rest.length := List.length_pos_of_ne_nil hne
  refine ⟨by omega, ?_⟩
  rcases hlands with ⟨hbound, hfit⟩ | ⟨htorn, hcut⟩
  · refine Or.inl ⟨?_, hfit⟩
    rcases Nat.eq_zero_or_pos (used + finish.used) with hzero | hpos
    · obtain ⟨d, t, hd⟩ := List.exists_cons_of_ne_nil hne
      rw [hzero]
      rw [hd] at h
      exact h.isBoundary (.after (n := 0) rfl (hmoves d t hd (by omega)))
    · rwa [Nat.max_eq_right hpos]
  · refine Or.inr ⟨?_, hcut⟩
    have hpos : 1 ≤ used + finish.used := by
      rcases Nat.eq_zero_or_pos finish.used with hzero | hpos
      · rw [hzero, Nat.add_zero] at htorn
        exact absurd hb htorn.offset
      · omega
    rw [Nat.max_eq_right hpos, ← List.drop_drop]
    exact htorn

/-! ## Scalars -/

theorem isSeam_kept {n : ℕ} (h : IsSeam cs n) :
    IsSeam cs ((cs.take n).reverse.dropWhile isFlowBlank).length :=
  h.trimmed fun _ => isAsciiOctet_of_isFlowBlank

theorem Halts.moves {n : ℕ} (h : Halts cs n) : Moves cs n := by
  rintro d t rfl rfl
  rcases h with hzero | ⟨e, he, hascii⟩
  · exact absurd hzero (Nat.zero_ne_add_one _)
  · obtain rfl := Option.some.inj he
    exact hascii

theorem length_kept_shade (cs : List Char) (n : ℕ) :
    (((cs.map shade).take n).reverse.dropWhile isFlowBlank).length =
      ((cs.take n).reverse.dropWhile isFlowBlank).length := by
  rw [← List.map_take, ← List.map_reverse, dropWhile_shade isFlowBlank_shade, List.length_map]

theorem flowKey_both (h : Stretch s c.offset c.rest) :
    Both (fun t t' => (t.Within s c.offset c.rest (fun x => [x.span]) ∧ Moves c.rest t.used) ∧
      Alike t t') (flowKey s c) (flowKey (shadow s) c.shade) := by
  have hany : (c.shade.rest.head?.any fun q => q == '"' || q == '\'') =
      c.rest.head?.any fun q => q == '"' || q == '\'' := by
    rw [Cursor.shade, List.head?_map]
    exact any_shade (fun q => by rw [shade_beq (by decide), shade_beq (by decide)]) _
  rw [flowKey, flowKey, hany]
  split_ifs with hquote
  · obtain ⟨q, rest, hrest, hmark⟩ := exists_quote_of_head hquote
    show Both _ (quotedScalar s c.offset c.rest)
      (quotedScalar (shadow s) c.offset (c.rest.map shade))
    rw [hrest] at h ⊢
    exact (quotedScalar_both h hmark).imp fun t t' ⟨ht, halike⟩ =>
      ⟨⟨ht.1, fun _ _ _ hz => absurd hz ht.2⟩, halike⟩
  · have hhalts : Halts c.rest (flowPlainLength none c.rest) := halts_flowPlainLength
    have hfits : Span.Fits s (.withLength c.offset _) :=
      Span.fits_withLength h.start (h.isBoundary (isSeam_kept hhalts.isSeam))
    have hlength := flowPlainLength_shade none c.rest
    rw [Option.map_none] at hlength
    rw [flowPlain, flowPlain]
    simp only [Cursor.shade, hlength, length_kept_shade]
    refine (plainScalar_both hfits).bind fun x y ⟨hx, hy⟩ => both_pure
      ⟨⟨⟨⟨fun r hr => ?_, forall_errors_nil⟩, hhalts.isSeam.le_length, h.isBoundary hhalts.isSeam⟩,
        Halts.moves hhalts⟩, rfl, hy.trans hx.symm, rfl⟩
    rw [List.mem_singleton.1 hr, hx]
    exact hfits

/-! ## Collections -/

variable {α β : Type} {t : Taken α} {u : Taken β} {spans : α → List Span} {spans' : β → List Span}

/-- What is taken `k` octets further on, counted from here. -/
theorem Taken.Within.of_advance (h : t.Within s (c.advance k).offset (c.advance k).rest spans)
    (hk : k ≤ c.rest.length) (hfits : u.Fits s spans') (hused : u.used = k + t.used) :
    u.Within s c.offset c.rest spans' := by
  have hle := h.used_le
  have hb := h.boundary
  rw [c.length_rest_advance] at hle
  rw [Cursor.offset_advance hk, Nat.add_assoc, ← hused] at hb
  exact { hfits with used_le := by omega, boundary := hb }

/-- From one pair to the next. -/
theorem lands_pair {key : Taken Scalar} {value : Taken Tree} (h : Stretch s c.offset c.rest)
    (hne : c.rest ≠ []) (hkey : key.Within s c.offset c.rest fun x => [x.span])
    (hmoves : Moves c.rest key.used)
    (hvalue : value.Within s (c.advance key.used).offset (c.advance key.used).rest Tree.spans) :
    Lands s c.offset c.rest
      (max 1 (key.used + value.used +
        (finishEntry (c.advance (key.used + value.used)) '\x7d').used))
      (finishEntry (c.advance (key.used + value.used)) '\x7d').errors := by
  have hpair := hvalue.of_advance (u := ⟨value.value, key.used + value.used, value.errors⟩)
    hkey.used_le ⟨hvalue.value, hvalue.errors⟩ rfl
  refine lands_entry '\x7d' h hne hpair.used_le hpair.boundary ?_
  intro d t hd hz
  exact hmoves d t hd (Nat.eq_zero_of_add_eq_zero_right hz)

theorem Cursor.skip_advance (c : Cursor) (k : ℕ) : c.skip.advance k = c.advance (c.gap + k) :=
  advance_advance c c.gap k

theorem Cursor.gap_add_le (h : k ≤ c.skip.rest.length) : c.gap + k ≤ c.rest.length := by
  have := c.gap_le
  have hlen : c.skip.rest.length = c.rest.length - c.gap := length_rest_advance c c.gap
  omega

theorem Taken.Within.of_skip_advance
    (h : t.Within s (c.skip.advance k).offset (c.skip.advance k).rest spans)
    (hk : k ≤ c.skip.rest.length) (hfits : u.Fits s spans') (hused : u.used = c.gap + k + t.used) :
    u.Within s c.offset c.rest spans' := by
  rw [c.skip_advance] at h
  exact h.of_advance (Cursor.gap_add_le hk) hfits hused

/-- Behind an ASCII octet, the place after blanks. -/
theorem Cursor.stretch_skip_advance {d : Char} (h : Stretch s c.offset c.rest)
    (hd : c.skip.rest.head? = some d) (hascii : IsAsciiOctet d) :
    1 ≤ c.skip.rest.length ∧ Stretch s (c.skip.advance 1).offset (c.skip.advance 1).rest := by
  have hget : c.skip.rest[0]? = some d := by rwa [← List.head?_eq_getElem?]
  have hle : 1 ≤ c.skip.rest.length := (List.getElem?_eq_some_iff.1 hget).1
  exact ⟨hle, stretch_advance (stretch_skip h) hle
    ((stretch_skip h).isBoundary (.after hget hascii))⟩

theorem flowValue_reads (h : Stretch s c.offset c.rest)
    (htree : c.skip.rest.head? = some ':' → Reads s
      (fun t => t.Within s (c.skip.advance 1).offset (c.skip.advance 1).rest Tree.spans)
      (flowTree s (c.skip.advance 1))) :
    Reads s (fun t => t.Within s c.offset c.rest Tree.spans) (flowValue s c) := by
  unfold flowValue
  split_ifs with hcolon
  · obtain ⟨hle, -⟩ := Cursor.stretch_skip_advance h hcolon (by decide)
    exact (htree hcolon).map fun t ht => ht.of_skip_advance hle ⟨ht.value, ht.errors⟩ rfl
  · have hskip := Cursor.stretch_skip h
    rw [c.offset_skip] at hskip
    refine reads_ok ⟨⟨fun r hr => ?_, forall_errors_nil⟩, c.gap_le, hskip.start⟩
    rw [List.mem_singleton.1 hr, c.offset_skip]
    exact Span.fits_emptyAt hskip.start

/-- An unclosed collection is in error from its bracket to the end. -/
theorem unterminated_fits (h : Stretch s c.offset c.rest) (hb : isBoundary s opened = true)
    (hle : opened ≤ c.offset) :
    ∀ e ∈ [(⟨.unterminatedFlow, ⟨opened, c.stop⟩⟩ : Error)], e.span.Fits s := by
  intro e he
  obtain rfl := List.mem_singleton.1 he
  exact ⟨by show opened ≤ c.offset + _; omega, hb, h.stop⟩

/-- A collection, from what stands behind its opening bracket. -/
theorem Taken.Within.bracketed {d : Char}
    (hbody : t.Within s (c.skip.advance 1).offset (c.skip.advance 1).rest spans)
    (h : Stretch s c.offset c.rest) (hd : c.skip.rest.head? = some d) (hascii : IsAsciiOctet d)
    (hspans : spans' u.value = .withLength c.skip.offset (1 + t.used) :: spans t.value)
    (herrors : u.errors = t.errors) (hused : u.used = c.gap + 1 + t.used) :
    u.Within s c.offset c.rest spans' ∧ Moves c.rest u.used := by
  obtain ⟨hle, -⟩ := Cursor.stretch_skip_advance h hd hascii
  have hspan : Span.Fits s (.withLength c.skip.offset (1 + t.used)) := by
    have hb := hbody.boundary
    rw [Cursor.offset_advance hle, Nat.add_assoc] at hb
    exact Span.fits_withLength (Cursor.stretch_skip h).start hb
  refine ⟨hbody.of_skip_advance hle ⟨?_, herrors ▸ hbody.errors⟩ hused, fun _ _ _ hz => ?_⟩
  · rw [hspans]
    exact List.forall_mem_cons.2 ⟨hspan, hbody.value⟩
  · omega

/-- The closing bracket, behind blanks. -/
theorem within_closed {d : Char} (h : Stretch s c.offset c.rest)
    (hd : c.skip.rest.head? = some d) (hascii : IsAsciiOctet d) (hu : ∀ r ∈ spans t.value, r.Fits s)
    (herrors : t.errors = []) (hused : t.used = c.gap + 1) : t.Within s c.offset c.rest spans := by
  obtain ⟨hle, hnext⟩ := Cursor.stretch_skip_advance h hd hascii
  have hlt := Cursor.gap_add_le hle
  rw [c.skip_advance, Cursor.offset_advance hlt] at hnext
  exact ⟨⟨hu, herrors ▸ forall_errors_nil⟩, hused ▸ hlt, hused ▸ hnext.start⟩

theorem Cursor.le_offset_advance (hle : opened ≤ c.offset) (k : ℕ) :
    opened ≤ (c.skip.advance k).offset := by
  have hskip := c.offset_skip
  exact le_trans (by omega) (Nat.le_add_right ..)

theorem Cursor.ne_nil_of_head {d : Char} (h : c.skip.rest.head? = some d) :
    ¬ c.skip.rest = [] := by
  intro hnil
  rw [hnil] at h
  cases h

theorem Cursor.length_skip_pos (h : ¬ c.skip.rest = []) :
    0 < c.skip.rest.length ∧ c.skip.rest.length ≤ c.rest.length := by
  refine ⟨List.length_pos_of_ne_nil h, ?_⟩
  have hlen : c.skip.rest.length = c.rest.length - c.gap := length_rest_advance c c.gap
  omega

mutual

/-- **Values of flow collections.** -/
theorem flowTree_reads (c : Cursor) (h : Stretch s c.offset c.rest) :
    Reads s (fun t => t.Within s c.offset c.rest Tree.spans ∧ Moves c.rest t.used)
      (flowTree s c) := by
  have hskip := Cursor.stretch_skip h
  rw [flowTree_eq]
  split_ifs with hnil hseq hmap
  · refine ⟨⟨⟨fun r hr => ?_, forall_errors_nil⟩, c.gap_le, c.offset_skip ▸ hskip.start⟩,
      fun d t hd hz => ?_⟩
    · rw [List.mem_singleton.1 hr]
      exact Span.fits_emptyAt hskip.start
    · have hz : c.gap = 0 := hz
      have hnil : c.rest.drop c.gap = [] := hnil
      rw [hz, hd] at hnil
      exact absurd hnil (List.cons_ne_nil d t)
  · have hlen := Cursor.length_skip_pos hnil
    obtain ⟨-, hnext⟩ := Cursor.stretch_skip_advance h hseq (by decide)
    have hle : c.skip.offset ≤ (c.skip.advance 1).offset := Nat.le_add_right ..
    refine (flowItems_reads _ (c.skip.advance 1) hnext hskip.start hle).bind fun items hitems => ?_
    exact hitems.bracketed h hseq (by decide) (by rw [Tree.spans]) rfl rfl
  · have hlen := Cursor.length_skip_pos hnil
    obtain ⟨-, hnext⟩ := Cursor.stretch_skip_advance h hmap (by decide)
    have hle : c.skip.offset ≤ (c.skip.advance 1).offset := Nat.le_add_right ..
    refine (flowPairs_reads _ [] (c.skip.advance 1) hnext hskip.start hle).bind
      fun pairs hpairs => ?_
    exact hpairs.bracketed h hmap (by decide) (by rw [Tree.spans]) rfl rfl
  · refine (flowKey_both hskip).reads.bind fun scalar ⟨_, ⟨hscalar, hmoves⟩, _⟩ => ?_
    refine reads_ok ⟨?_, fun d t hd hz => ?_⟩
    · have hscalar : scalar.Within s (c.advance c.gap).offset (c.advance c.gap).rest _ := hscalar
      exact hscalar.of_advance c.gap_le ⟨hscalar.value, hscalar.errors⟩ rfl
    · have hz : c.gap + scalar.used = 0 := hz
      refine hmoves d t ?_ (by omega)
      show c.rest.drop c.gap = d :: t
      rw [show c.gap = 0 by omega, hd]
      rfl
termination_by 2 * c.rest.length + 1
decreasing_by
  all_goals
    simp only [Cursor.length_rest_advance]
    omega

theorem flowItems_reads (opened : ℕ) (c : Cursor) (h : Stretch s c.offset c.rest)
    (hb : isBoundary s opened = true) (hle : opened ≤ c.offset) :
    Reads s (fun t => t.Within s c.offset c.rest spansOfItems) (flowItems s opened c) := by
  have hskip := Cursor.stretch_skip h
  rw [flowItems_eq]
  split_ifs with hnil hclose hcomma
  · exact ⟨⟨fun r hr => absurd hr List.not_mem_nil, unterminated_fits h hb hle⟩, c.gap_le,
      c.offset_skip ▸ hskip.start⟩
  · exact within_closed h hclose (by decide) (fun r hr => absurd hr List.not_mem_nil) rfl rfl
  · have hlen := Cursor.length_skip_pos hnil
    obtain ⟨hlt, hnext⟩ := Cursor.stretch_skip_advance h hcomma (by decide)
    refine (flowItems_reads opened (c.skip.advance 1) hnext hb
      (Cursor.le_offset_advance hle 1)).bind ?_
    intro more hmore
    exact hmore.of_skip_advance hlt ⟨hmore.value, hmore.errors⟩ rfl
  · have hlen := Cursor.length_skip_pos hnil
    refine (flowTree_reads c.skip hskip).bind fun item ⟨hitem, hmoves⟩ => ?_
    obtain ⟨hstep, hlands⟩ := lands_entry ']' hskip hnil hitem.used_le hitem.boundary hmoves
    have hpos : 1 ≤ max 1 (item.used + (finishEntry (c.skip.advance item.used) ']').used) :=
      Nat.le_max_left ..
    dsimp only
    generalize max 1 (item.used + (finishEntry (c.skip.advance item.used) ']').used) = step at *
    rcases hlands with ⟨hbound, hfit⟩ | ⟨htorn, -⟩
    · have hnext := Cursor.stretch_advance hskip hstep hbound
      refine (flowItems_reads opened (c.skip.advance step) hnext hb
        (Cursor.le_offset_advance hle step)).bind
        fun more hmore => hmore.of_skip_advance hstep ⟨?_, ?_⟩ rfl
      · rw [spansOfItems]
        exact List.forall_mem_append.2 ⟨hitem.value, hmore.value⟩
      · simp only [List.forall_mem_append]
        exact ⟨⟨hitem.errors, hfit⟩, hmore.errors⟩
    · obtain ⟨e, he⟩ := flowItems_torn opened (Cursor.torn_advance htorn hstep)
      rw [he]
      exact htorn.text
termination_by 2 * c.rest.length + 2
decreasing_by
  all_goals
    try simp only [Cursor.length_rest_advance]
    omega

theorem flowPairs_reads (opened : ℕ) (seen : List String) (c : Cursor)
    (h : Stretch s c.offset c.rest) (hb : isBoundary s opened = true) (hle : opened ≤ c.offset) :
    Reads s (fun t => t.Within s c.offset c.rest spansOfPairs) (flowPairs s opened seen c) := by
  have hskip := Cursor.stretch_skip h
  rw [flowPairs_eq]
  split_ifs with hnil hclose hcomma
  · exact ⟨⟨fun r hr => absurd hr List.not_mem_nil, unterminated_fits h hb hle⟩, c.gap_le,
      c.offset_skip ▸ hskip.start⟩
  · exact within_closed h hclose (by decide) (fun r hr => absurd hr List.not_mem_nil) rfl rfl
  · have hlen := Cursor.length_skip_pos hnil
    obtain ⟨hlt, hnext⟩ := Cursor.stretch_skip_advance h hcomma (by decide)
    refine (flowPairs_reads opened seen (c.skip.advance 1) hnext hb
      (Cursor.le_offset_advance hle 1)).bind ?_
    intro more hmore
    exact hmore.of_skip_advance hlt ⟨hmore.value, hmore.errors⟩ rfl
  · have hlen := Cursor.length_skip_pos hnil
    refine (flowKey_both hskip).reads.bind fun key ⟨_, ⟨hkey, hmoves⟩, _⟩ => ?_
    have hafter := Cursor.stretch_advance hskip hkey.used_le hkey.boundary
    have hlen' : (c.skip.advance key.used).rest.length = c.skip.rest.length - key.used :=
      Cursor.length_rest_advance ..
    refine (flowValue_reads hafter fun hcolon => ?_).bind fun value hvalue => ?_
    · have hlen'' := Cursor.length_skip_pos (Cursor.ne_nil_of_head hcolon)
      exact (flowTree_reads _ (Cursor.stretch_skip_advance hafter hcolon (by decide)).2).imp
        fun _ ht => ht.1
    · obtain ⟨hstep, hlands⟩ := lands_pair hskip hnil hkey hmoves hvalue
      have hpos : 1 ≤ max 1 (key.used + value.used +
          (finishEntry (c.skip.advance (key.used + value.used)) '\x7d').used) := Nat.le_max_left ..
      dsimp only
      generalize max 1 (key.used + value.used +
        (finishEntry (c.skip.advance (key.used + value.used)) '\x7d').used) = step at *
      rcases hlands with ⟨hbound, hfit⟩ | ⟨htorn, -⟩
      · have hnext := Cursor.stretch_advance hskip hstep hbound
        refine (flowPairs_reads opened _ (c.skip.advance step) hnext hb
          (Cursor.le_offset_advance hle step)).bind
          fun more hmore => hmore.of_skip_advance hstep ⟨?_, ?_⟩ rfl
        · rw [spansOfPairs]
          exact List.forall_mem_append.2 ⟨List.forall_mem_cons.2
            ⟨hkey.value _ List.mem_cons_self, hvalue.value⟩, hmore.value⟩
        · simp only [List.forall_mem_append]
          exact ⟨⟨⟨⟨hkey.errors, hvalue.errors⟩,
            duplicateErrors_fit (hkey.value _ List.mem_cons_self)⟩, hfit⟩, hmore.errors⟩
      · obtain ⟨e, he⟩ := flowPairs_torn opened (key.value.key :: seen)
          (Cursor.torn_advance htorn hstep)
        rw [he]
        exact htorn.text
termination_by 2 * c.rest.length + 2
decreasing_by
  all_goals
    try simp only [Cursor.length_rest_advance]
    omega

end

end Polyglot.Data
