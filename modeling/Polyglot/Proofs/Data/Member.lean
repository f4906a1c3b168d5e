import Polyglot.Proofs.Data.Json

/-!
# Reading one member of a block

A key or a dash with its value on the line is read without the lines below it (`inlineValue_inline`,
`block_inline`), as long as they are not deeper. Quoted keys end at their own colon (`findKey?_quoted`), and a
negative number is no dash.
-/

namespace Polyglot.Data

open Text Typed Datum

variable {s t u : String} {d : Datum} {a : Atom} {body : List Char} {i k n start : ℕ} {l : Line}
  {rest : List Line} {seen : List String}

/-! ## Lines to the left -/

/-- The first of the lines that is not blank, if there is one, is to the left of the column. -/
def Ends (k : ℕ) (lines : List Line) : Prop :=
  ∀ l, (lines.dropWhile Line.isBlank).head? = some l → l.indent < k

theorem ends_of_blank (h : ∀ l ∈ rest, l.isBlank = true) (k : ℕ) : Ends k rest := by
  intro l hl
  rw [List.dropWhile_eq_nil_iff.2 h] at hl
  cases hl

theorem Ends.mono {m : ℕ} (h : Ends k rest) (hkm : k ≤ m) : Ends m rest :=
  fun l hl => (h l hl).trans_le hkm

theorem Ends.of_blank (h : Ends k (l :: rest)) (hl : l.isBlank = true) : Ends k rest := by
  intro m hm
  rw [Ends, List.dropWhile_cons_of_pos hl] at h
  exact h m hm

theorem Ends.indent_lt (h : Ends k (l :: rest)) (hl : l.isBlank = false) : l.indent < k := by
  refine h l ?_
  rw [List.dropWhile_cons_of_neg (by simp [hl])]
  rfl

theorem Line.isBlank_of_isEmpty (h : l.isEmpty = true) : l.isBlank = true := by
  rw [isEmpty, List.isEmpty_iff] at h
  rw [isBlank, h]
  rfl

/-- Lines that are not deeper do not go on with a plain scalar. -/
theorem foldPlain_of_ends (h : Ends (k + 1) rest) (empty : ℕ) :
    foldPlain s k empty rest = .ok none := by
  induction rest generalizing empty with
  | nil => rfl
  | cons l ls ih =>
    rw [foldPlain]
    by_cases hempty : l.isEmpty = true
    · rw [if_pos hempty]
      exact ih (h.of_blank (Line.isBlank_of_isEmpty hempty)) _
    · have hstops : continuesPlain k l = false := by
        rcases hblank : l.isBlank with _ | _
        · have hlt := h.indent_lt hblank
          have hle : ¬ k < l.indent := by omega
          simp [continuesPlain, hle]
        · simp [continuesPlain, hblank]
      rw [if_neg hempty, if_neg (by simp [hstops])]

/-! ## Values on a line -/

theorem trimEnd_word {ds : List Char} (h : ds.all isWordChar = true) : trimEnd ds = ds := by
  rw [trimEnd, dropWhile_reverse_word (fun d hd => ?_) h, List.reverse_reverse]
  have hflow := isFlowBlank_of_isWordChar hd
  rw [isFlowBlank, Bool.or_eq_false_iff, Bool.or_eq_false_iff] at hflow
  exact hflow.1.1

theorem beforeComment_word {ds : List Char} (h : ds.all isWordChar = true)
    (previous : Option Char) : beforeComment previous ds = ds.length := by
  induction ds generalizing previous with
  | nil => rfl
  | cons d ds ih =>
    rw [List.all_cons, Bool.and_eq_true] at h
    have hhash : d ≠ '#' := ne_of_apply h.1 (by decide)
    rw [beforeComment, if_neg fun hand => hhash hand.1, ih h.2, List.length_cons]

theorem plainLength_word {ds : List Char} (h : ds.all isWordChar = true) :
    plainLength ds = ds.length := by
  rw [plainLength, beforeComment_word h, List.take_length, trimEnd_word h]

theorem trailingErrors_nil (n : ℕ) : trailingErrors n [] = [] := rfl

theorem inlineValue_spelled (ha : a.SpelledBy t) (h : Stretch s start (octets t))
    (hrest : Ends (k + 1) rest) :
    ∃ x, inlineValue s start (octets t) k rest = .ok ⟨.scalar x, 0, []⟩ ∧ x.value = a.value := by
  rw [inlineValue_eq]
  cases ha with
  | @quoted body t hbody hs =>
    obtain ⟨x, hx, hvalue⟩ := quotedScalar_quoted hbody hs h []
    refine ⟨x, ?_, hvalue⟩
    rw [List.append_nil] at hx
    have hdrop : (octets (quoted body)).drop (size (quoted body)) = [] :=
      List.drop_eq_nil_of_le (length_octets _).le
    rw [if_pos (by rw [octets_quoted]; exact .inl rfl), hx]
    simp only [bind, Except.bind, pure, Except.pure, hdrop, trailingErrors_nil, List.append_nil]
  | word hword hvalue =>
    have hoctets := octets_of_isWord hword
    have hlength : plainLength (octets t) = size t := by
      rw [hoctets, plainLength_word hword.chars, ← hoctets, length_octets]
    have hhead {d : Char} (hd : isWordChar d = false) : (octets t).head? ≠ some d := by
      intro heq
      rw [hoctets] at heq
      have hmem := List.all_eq_true.1 hword.chars d (List.mem_of_mem_head? heq)
      rw [hd] at hmem
      cases hmem
    refine ⟨⟨.ofPlain t, .plain, .withLength start (size t), t⟩, ?_, hvalue⟩
    rw [if_neg (not_or.2 ⟨hhead (by decide), hhead (by decide)⟩),
      if_neg (not_or.2 ⟨hhead (by decide), hhead (by decide)⟩),
      if_neg (not_or.2 ⟨hhead (by decide), hhead (by decide)⟩), blockPlain,
      foldPlain_of_ends hrest, hlength]
    simp only [bind, Except.bind, pure, Except.pure, plainScalar, tokenText, h.slice?]

/-- What is written on a line is a scalar, or a collection without members as JSON. -/
theorem inline_cases (h : d.inline? = some t) : (∃ a, d = .atom a ∧ t = a.value.literal) ∨
    d.isCollection = true ∧ t = d.json ∧ d.HasDistinctKeys ∧ d.shape false = d.shape true := by
  cases d with
  | atom a => exact .inl ⟨a, rfl, (Option.some.inj h).symm⟩
  | sequence items =>
    rcases items with _ | ⟨d, ds⟩
    · exact .inr ⟨rfl, (Option.some.inj h).symm, trivial, rfl⟩
    · cases h
  | mapping pairs =>
    rcases pairs with _ | ⟨p, ps⟩
    · exact .inr ⟨rfl, (Option.some.inj h).symm, ⟨List.nodup_nil, trivial⟩, rfl⟩
    · cases h

/-- **Values on a line.** A value behind a key is read from the rest of the line. -/
theorem inlineValue_inline (hd : d.inline? = some t) (h : Stretch s start (octets t))
    (hi : start + size t ≤ i) (hlines : LinesFrom s i rest) (hrest : Ends (k + 1) rest) :
    ∃ x, inlineValue s start (octets t) k rest = .ok ⟨x, 0, []⟩ ∧ x.shape = d.shape false := by
  obtain ⟨a, rfl, rfl⟩ | ⟨hcollection, rfl, hkeys, hshape⟩ := inline_cases hd
  · obtain ⟨x, hx, hvalue⟩ := inlineValue_spelled a.spelledBy_literal h hrest
    exact ⟨.scalar x, hx, by rw [Tree.shape, Datum.shape, hvalue]⟩
  · rw [hshape]
    exact inlineValue_json hcollection hkeys h hi hlines k

/-- What the text of a value on a line begins with. -/
theorem beginsValue_inline (hd : d.inline? = some t) : (octets t).head?.any beginsValue = true := by
  obtain ⟨a, rfl, rfl⟩ | ⟨-, rfl, -⟩ := inline_cases hd
  · exact any_head?_imp a.spelledBy_literal.beginsScalar beginsValue_of_beginsScalar
  · exact beginsValue_json d

/-! ## Items -/

theorem beforeSeparator?_word {ds : List Char} (h : ds.all isWordChar = true)
    (previous : Option Char) : beforeSeparator? previous ds = none := by
  induction ds generalizing previous with
  | nil => rfl
  | cons d ds ih =>
    rw [List.all_cons, Bool.and_eq_true] at h
    have hhash : d ≠ '#' := ne_of_apply h.1 (by decide)
    have hcolon : d ≠ ':' := ne_of_apply h.1 (by decide)
    have hnot : beginsSeparator (d :: ds) = false := by simp [beginsSeparator_cons, hcolon]
    rw [beforeSeparator?, if_neg fun hand => hhash hand.1, hnot, if_neg Bool.false_ne_true, ih h.2]
    rfl

/-- A key in quotes ends at the colon behind them, whatever colons it holds. -/
theorem findKey?_quoted (hbody : IsStringBody body) (cs : List Char) :
    findKey? (octets (quoted body) ++ cs) =
      if beginsSeparator (cs.drop (blanks cs)) then
        some ⟨size (quoted body), size (quoted body) + blanks cs + 1⟩
      else none := by
  have hclose := beforeClosingQuote?_shielded (isShielded_octets hbody) cs
  have hdrop : (octets (quoted body) ++ cs).drop (size (quoted body)) = cs := by
    rw [← length_octets, List.drop_left]
  have hsize := size_quoted body
  rw [octets_quoted, List.cons_append, List.append_assoc, List.singleton_append] at hdrop ⊢
  rw [findKey_cons, if_neg (by decide), if_pos (.inl rfl), hclose, Option.bind_some, length_octets,
    ← hsize]
  dsimp only
  rw [← List.drop_drop, hdrop]

/-- A scalar on a line is no item and no pair. -/
theorem Atom.SpelledBy.not_member (h : a.SpelledBy t) (hl : l.content = octets t) :
    l.isItem = false ∧ findKey? l.content = none := by
  rw [Line.isItem_eq, hl]
  cases h with
  | @quoted body t hbody ht =>
    have hkey := findKey?_quoted hbody []
    rw [List.append_nil] at hkey
    refine ⟨?_, hkey⟩
    rw [octets_quoted]
    rfl
  | word hword hvalue =>
    rw [octets_of_isWord hword]
    obtain ⟨d, ds, hds⟩ := List.exists_cons_of_ne_nil hword.ne_nil
    have hchars := hword.chars
    have hdash := hword.ne_dash
    rw [hds, List.all_cons, Bool.and_eq_true] at hchars
    rw [hds] at hdash ⊢
    have hne {e : Char} (he : isWordChar e = false) : d ≠ e := ne_of_apply hchars.1 he
    constructor
    · rcases ds with _ | ⟨e, ds⟩
      · have hd : d ≠ '-' := fun heq => hdash (heq ▸ rfl)
        simp [hd]
      · -- the octet behind a dash is a digit
        have he := hchars.2
        rw [List.all_cons, Bool.and_eq_true] at he
        have hblank : isBlank e = false := by
          simp [isBlank, ne_of_apply he.1 (e := ' ') (by decide),
            ne_of_apply he.1 (e := '\t') (by decide)]
        simp [hblank]
    · rw [findKey_cons, if_neg, if_neg, beforeSeparator?_word]
      · rfl
      · rw [List.all_cons, hchars.1, hchars.2]
        rfl
      · simp [hne (e := '"') (by decide), hne (e := '\'') (by decide)]
      · simp [hne (e := '[') (by decide), hne (e := '\x7b') (by decide), hne (e := '#') (by decide)]

/-- **Items on a line.** A value behind a dash is read from the rest of the line. -/
theorem block_inline (hd : d.inline? = some t) (hl : l.content = octets t) (hlies : l.Lies s)
    (hlines : LinesFrom s l.breakStart rest) (hrest : Ends l.indent rest) (hpos : 0 < l.indent) :
    ∃ x, block s l rest = .ok ⟨x, 0, []⟩ ∧ x.shape = d.shape false := by
  obtain ⟨a, rfl, rfl⟩ | ⟨hcollection, rfl, hkeys, hshape⟩ := inline_cases hd
  · obtain ⟨hitem, hkey⟩ := a.spelledBy_literal.not_member hl
    have hstretch := hlies.content
    rw [hl] at hstretch
    have hrest : Ends (l.indent - 1 + 1) rest := by rwa [Nat.sub_add_cancel hpos]
    obtain ⟨x, hx, hvalue⟩ := inlineValue_spelled a.spelledBy_literal hstretch hrest
    refine ⟨.scalar x, ?_, by rw [Tree.shape, Datum.shape, hvalue]⟩
    rw [block, if_neg (by simp [hitem]), if_neg (by simp [hkey]), hl, hx]
  · rw [hshape]
    exact block_json hcollection hkeys hlies hl hlines

/-! ## Steps -/

/-- A reader of members that passes over blank lines and stops at a line to the left reads none there. -/
theorem exists_of_ends {α : Type} {f : List Line → Except TornCharacter (Taken (List α))}
    (hnil : f [] = .ok ⟨[], 0, []⟩)
    (hblank : ∀ l ls, l.isBlank = true → f (l :: ls) = do
      let more ← f ls
      return { more with used := more.used + 1 })
    (hout : ∀ l ls, l.isBlank = false → l.indent < k → f (l :: ls) = .ok ⟨[], 0, []⟩)
    (h : Ends k rest) :
    ∃ n, f rest = .ok ⟨[], n, []⟩ ∧ rest.drop n = rest.dropWhile Line.isBlank := by
  induction rest with
  | nil => exact ⟨0, hnil, rfl⟩
  | cons l ls ih =>
    rcases hl : l.isBlank with _ | _
    · refine ⟨0, hout l ls hl (h.indent_lt hl), ?_⟩
      rw [List.dropWhile_cons_of_neg (by simp [hl])]
      rfl
    · obtain ⟨n, hn, hdrop⟩ := ih (h.of_blank hl)
      refine ⟨n + 1, ?_, ?_⟩
      · rw [hblank l ls hl, hn]
        rfl
      · rw [List.dropWhile_cons_of_pos hl]
        exact hdrop

theorem blockItems_of_ends (h : Ends k rest) :
    ∃ n, blockItems s k rest = .ok ⟨[], n, []⟩ ∧ rest.drop n = rest.dropWhile Line.isBlank := by
  refine exists_of_ends (by rw [blockItems]) (fun l ls hl => ?_) (fun l ls hl hlt => ?_) h
  · rw [blockItems, if_pos hl]
  · rw [blockItems, if_neg (by simp [hl]), if_pos hlt]

theorem blockPairs_of_ends (seen : List String) (h : Ends k rest) :
    ∃ n, blockPairs s k seen rest = .ok ⟨[], n, []⟩ ∧
      rest.drop n = rest.dropWhile Line.isBlank := by
  refine exists_of_ends (by rw [blockPairs]) (fun l ls hl => ?_) (fun l ls hl hlt => ?_) h
  · rw [blockPairs, if_pos hl]
  · rw [blockPairs, if_neg (by simp [hl]), if_pos hlt]

variable {x : Scalar} {y : Tree} {xs : List (ℕ × Tree)} {ys : List (Scalar × Tree)} {m : ℕ}

/-- A block right below a key or a dash is its value. -/
theorem blockNested_of_block {underKey : Bool} {anchor : ℕ} (hblank : l.isBlank = false)
    (hk : k < l.indent) (h : block s l rest = .ok ⟨y, n, []⟩) :
    blockNested s k underKey anchor (l :: rest) = .ok ⟨y, n + 1, []⟩ := by
  have hline : nestedLine? k underKey (l :: rest) = some (0, l) := by
    have hnone : (l :: rest).takeWhile Line.isBlank = [] :=
      List.takeWhile_cons_of_neg (by simp [hblank])
    unfold nestedLine?
    simp [hnone, hk]
  rw [blockNested_of_eq_some hline]
  show (do
    let tree ← block s l rest
    return { tree with used := 0 + 1 + tree.used }) = _
  rw [h, Nat.zero_add, Nat.add_comm n]
  rfl

theorem blockItems_cons (hitem : l.isItem = true) (hblank : l.isBlank = false)
    (hvalue : (if isUsedUp (l.content.drop (1 + blanks (l.content.drop 1))) then
        blockNested s l.indent false (l.contentStart + 1) rest
      else block s (l.advance (1 + blanks (l.content.drop 1))) rest) = .ok ⟨y, n, []⟩)
    (hmore : blockItems s l.indent (rest.drop n) = .ok ⟨xs, m, []⟩) :
    blockItems s l.indent (l :: rest) = .ok ⟨(l.contentStart, y) :: xs, 1 + n + m, []⟩ := by
  rw [blockItems, if_neg (by simp [hblank]), if_neg (lt_irrefl _), if_neg (lt_irrefl _),
    if_pos hitem]
  dsimp only
  rw [hvalue]
  simp only [bind, Except.bind, pure, Except.pure, hmore, List.append_nil]

theorem blockPairs_cons {e : KeyExtent} {used : ℕ} (hitem : l.isItem = false)
    (hblank : l.isBlank = false) (hextent : findKey? l.content = some e)
    (hkey : blockKey s l.contentStart (l.content.take e.key) = .ok ⟨x, used, []⟩)
    (hfresh : x.key ∉ seen)
    (hvalue : (if isUsedUp (l.content.drop (e.colonEnd + blanks (l.content.drop e.colonEnd))) then
        blockNested s l.indent true (l.contentStart + e.colonEnd) rest
      else inlineValue s (l.contentStart + (e.colonEnd + blanks (l.content.drop e.colonEnd)))
        (l.content.drop (e.colonEnd + blanks (l.content.drop e.colonEnd))) l.indent rest) =
          .ok ⟨y, n, []⟩)
    (hmore : blockPairs s l.indent (x.key :: seen) (rest.drop n) = .ok ⟨ys, m, []⟩) :
    blockPairs s l.indent seen (l :: rest) = .ok ⟨(x, y) :: ys, 1 + n + m, []⟩ := by
  have hnone : duplicateErrors seen x = [] := by
    rw [duplicateErrors, if_neg (by simpa using hfresh)]
  rw [blockPairs, if_neg (by simp [hblank]), if_neg (lt_irrefl _), if_neg (by simp [hitem]), hextent]
  simp only [hkey, bind, Except.bind, pure, Except.pure]
  rw [hvalue]
  simp only [hmore, hnone, List.append_nil]

theorem block_of_items (hitem : l.isItem = true) (hblank : l.isBlank = false)
    (h : blockItems s l.indent (l :: rest) = .ok ⟨xs, n, []⟩) :
    ∃ span m, n = m + 1 ∧ block s l rest = .ok ⟨.sequence false span (xs.map (·.2)), m, []⟩ := by
  have hpos : 0 < n := used_blockItems_pos hblank hitem h
  obtain ⟨m, rfl⟩ := Nat.exists_eq_succ_of_ne_zero hpos.ne'
  rw [block, if_pos hitem, h]
  exact ⟨_, m, rfl, rfl⟩

theorem block_of_pairs (hitem : l.isItem = false) (hblank : l.isBlank = false)
    (hkey : (findKey? l.content).isSome = true)
    (h : blockPairs s l.indent [] (l :: rest) = .ok ⟨ys, n, []⟩) :
    ∃ span m, n = m + 1 ∧ block s l rest = .ok ⟨.mapping false span ys, m, []⟩ := by
  have hpos : 0 < n := used_blockPairs_pos hblank hitem hkey h
  obtain ⟨m, rfl⟩ := Nat.exists_eq_succ_of_ne_zero hpos.ne'
  rw [block, if_neg (by simp [hitem]), if_pos hkey, h]
  exact ⟨_, m, rfl, rfl⟩

/-! ## Dashes -/

/-- The octet begins content: it is no blank, and no comment begins with it. -/
def beginsContent (d : Char) : Bool := !isBlank d && d != '#'

theorem blanks_cons_of_beginsContent {cs : List Char} (h : cs.head?.any beginsContent = true) :
    blanks (' ' :: cs) = 1 := by
  rcases cs with _ | ⟨d, ds⟩
  · cases h
  · have hblank : isBlank d = false := by
      have hd : beginsContent d = true := h
      rw [beginsContent, Bool.and_eq_true, Bool.not_eq_true'] at hd
      exact hd.1
    simp [blanks, hblank, show isBlank ' ' = true from rfl]

theorem isUsedUp_of_beginsContent {cs : List Char} (h : cs.head?.any beginsContent = true) :
    isUsedUp cs = false := by
  rcases cs with _ | ⟨d, ds⟩
  · cases h
  · have hd : beginsContent d = true := h
    have hhash : d ≠ '#' := ne_of_apply hd (by decide)
    simp [isUsedUp, hhash]

theorem beginsContent_of_beginsValue (d : Char) (h : beginsValue d = true) :
    beginsContent d = true := by
  have hne {e : Char} (he : beginsValue e = false) : d ≠ e := ne_of_apply h he
  simp [beginsContent, isBlank, hne (e := ' ') (by decide), hne (e := '\t') (by decide),
    hne (e := '#') (by decide)]

/-- A line with a dash, and `u` behind it. -/
structure Line.IsDashed (s : String) (l : Line) (u : String) : Prop where
  lies : l.Lies s
  content : l.content = '-' :: octets u

/-- An item with its value on the line. -/
theorem Line.IsDashed.blockItems_inline (h : l.IsDashed s (" " ++ t)) (hd : d.inline? = some t)
    (hlines : LinesFrom s l.breakStart rest) (hrest : Ends (l.indent + 1) rest)
    (hmore : blockItems s l.indent rest = .ok ⟨xs, m, []⟩) :
    ∃ y, blockItems s l.indent (l :: rest) = .ok ⟨(l.contentStart, y) :: xs, 1 + m, []⟩ ∧
      y.shape = d.shape false := by
  have hbegins := any_head?_imp (beginsValue_inline hd) beginsContent_of_beginsValue
  have hcontent : l.content = '-' :: ' ' :: octets t := by
    rw [h.content, octets_append]
    rfl
  have hitem : l.isItem = true := by
    rw [Line.isItem, hcontent]
    rfl
  have hblank : l.isBlank = false := by
    rw [Line.isBlank, hcontent]
    rfl
  have hcolumn : 1 + blanks (l.content.drop 1) = 2 := by
    rw [hcontent]
    show 1 + blanks (' ' :: octets t) = 2
    rw [blanks_cons_of_beginsContent hbegins]
  have hadvance : (l.advance 2).content = octets t := by
    rw [Line.advance, hcontent]
    rfl
  have hlies : (l.advance 2).Lies s := h.lies.advance fun j hj =>
    isSeam_of_le_itemColumn hitem (hcolumn.symm ▸ hj)
  obtain ⟨y, hy, hshape⟩ := block_inline (l := l.advance 2) hd hadvance hlies hlines
    (hrest.mono (Nat.le_succ _)) (Nat.succ_pos _)
  refine ⟨y, ?_, hshape⟩
  refine blockItems_cons (n := 0) hitem hblank ?_ hmore
  have hused : isUsedUp (l.content.drop 2) = false := by
    rw [hcontent]
    exact isUsedUp_of_beginsContent hbegins
  rw [hcolumn, hused, if_neg Bool.false_ne_true, hy]

/-- An item with its value below the line. -/
theorem Line.IsDashed.blockItems_nested (h : l.IsDashed s "")
    (hvalue : blockNested s l.indent false (l.contentStart + 1) rest = .ok ⟨y, n, []⟩)
    (hmore : blockItems s l.indent (rest.drop n) = .ok ⟨xs, m, []⟩) :
    blockItems s l.indent (l :: rest) = .ok ⟨(l.contentStart, y) :: xs, 1 + n + m, []⟩ := by
  have hcontent : l.content = ['-'] := h.content
  refine blockItems_cons ?_ ?_ ?_ hmore
  · rw [Line.isItem, hcontent]
    rfl
  · rw [Line.isBlank, hcontent]
    rfl
  · rw [hcontent]
    exact hvalue

/-! ## Keys -/

/-- A line with a quoted key, its colon, and `u` behind them. -/
structure Line.IsKeyed (s : String) (l : Line) (key u : String) : Prop where
  lies : l.Lies s
  content : l.content = octets (quote key ++ (":" ++ u))

namespace Line.IsKeyed

variable {key : String}

theorem content_eq (h : l.IsKeyed s key u) :
    l.content = octets (quote key) ++ ':' :: octets u := by
  rw [h.content, octets_append, octets_append]
  rfl

theorem head (h : l.IsKeyed s key u) : l.content.head? = some '"' := by
  rw [h.content_eq, quote_eq, octets_quoted]
  rfl

theorem isItem (h : l.IsKeyed s key u) : l.isItem = false := by
  rw [Line.isItem_eq, h.head]
  rfl

theorem isBlank (h : l.IsKeyed s key u) : l.isBlank = false := by
  rw [Line.isBlank, h.head]
  rfl

theorem drop (h : l.IsKeyed s key u) : l.content.drop (size (quote key) + 1) = octets u := by
  rw [h.content_eq, ← List.drop_drop, ← length_octets, List.drop_left]
  rfl

theorem stretch (h : l.IsKeyed s key u) :
    Stretch s (l.contentStart + (size (quote key) + 1)) (octets u) := by
  have hstretch := h.lies.content
  rw [h.content] at hstretch
  exact hstretch.right.right

theorem findKey? (h : l.IsKeyed s key u) (hu : (octets u).head?.all Data.isBlank = true) :
    findKey? l.content = some ⟨size (quote key), size (quote key) + 1⟩ := by
  have hsep : beginsSeparator (':' :: octets u) = true := by simp [beginsSeparator_cons, hu]
  have hkey := findKey?_quoted (isStringBody_quoteBody key) (':' :: octets u)
  have hblanks : blanks (':' :: octets u) = 0 := rfl
  rw [← quote_eq, ← h.content_eq, hblanks, List.drop_zero, if_pos hsep] at hkey
  exact hkey

theorem blockKey (h : l.IsKeyed s key u) :
    ∃ x, blockKey s l.contentStart (l.content.take (size (quote key))) =
      .ok ⟨x, size (quote key), []⟩ ∧ x.value = .text key := by
  have hstretch := h.lies.content
  rw [h.content] at hstretch
  have htake : l.content.take (size (quote key)) = octets (quote key) := by
    rw [h.content_eq, ← length_octets, List.take_left]
  have hbody := isStringBody_quoteBody key
  have hquote := quote_eq key
  obtain ⟨x, hx, hvalue⟩ := quotedScalar_quoted hbody (unescapeList_quoteBody key)
    (hquote ▸ hstretch.left) []
  rw [List.append_nil, ← hquote] at hx
  refine ⟨x, ?_, hvalue⟩
  rw [htake, Data.blockKey, if_pos (by rw [hquote, octets_quoted]; rfl), hx]

/-- A pair with its value on the line. -/
theorem blockPairs_inline (h : l.IsKeyed s key (" " ++ t)) (hd : d.inline? = some t)
    (hlines : LinesFrom s l.breakStart rest) (hrest : Ends (l.indent + 1) rest)
    (hfresh : quote key ∉ seen)
    (hmore : blockPairs s l.indent (quote key :: seen) rest = .ok ⟨ys, m, []⟩) :
    ∃ x y, blockPairs s l.indent seen (l :: rest) = .ok ⟨(x, y) :: ys, 1 + m, []⟩ ∧
      x.value = .text key ∧ y.shape = d.shape false := by
  have hbegins := any_head?_imp (beginsValue_inline hd) beginsContent_of_beginsValue
  have hspace : octets (" " ++ t) = ' ' :: octets t := by
    rw [octets_append]
    rfl
  obtain ⟨x, hx, hvalue⟩ := h.blockKey
  have hkey : x.key = quote key := congrArg Value.key hvalue
  have hblanks : blanks (octets (" " ++ t)) = 1 := by
    rw [hspace, blanks_cons_of_beginsContent hbegins]
  have hdrop : l.content.drop (size (quote key) + 1 + 1) = octets t := by
    rw [← List.drop_drop, h.drop, hspace]
    rfl
  have hstretch : Stretch s (l.contentStart + (size (quote key) + 1 + 1)) (octets t) :=
    h.stretch.right
  have hend := h.lies.contentEnd_le
  rw [Line.contentEnd, h.content, length_octets, size_append, size_append, size_append] at hend
  have hone : size ":" = 1 := rfl
  have hone' : size " " = 1 := rfl
  obtain ⟨y, hy, hshape⟩ := inlineValue_inline hd hstretch (i := l.breakStart) (by omega) hlines hrest
  refine ⟨x, y, ?_, hvalue, hshape⟩
  refine blockPairs_cons (n := 0) h.isItem h.isBlank (h.findKey? (by rw [hspace]; rfl)) hx
    (hkey ▸ hfresh) ?_ (hkey ▸ hmore)
  rw [h.drop, hblanks, hdrop, isUsedUp_of_beginsContent hbegins, if_neg Bool.false_ne_true, hy]

/-- A pair with its value below the line. -/
theorem blockPairs_nested (h : l.IsKeyed s key "") (hfresh : quote key ∉ seen)
    (hvalue : ∀ anchor, blockNested s l.indent true anchor rest = .ok ⟨y, n, []⟩)
    (hmore : blockPairs s l.indent (quote key :: seen) (rest.drop n) = .ok ⟨ys, m, []⟩) :
    ∃ x, blockPairs s l.indent seen (l :: rest) = .ok ⟨(x, y) :: ys, 1 + n + m, []⟩ ∧
      x.value = .text key := by
  obtain ⟨x, hx, hkey'⟩ := h.blockKey
  have hkey : x.key = quote key := congrArg Value.key hkey'
  refine ⟨x, blockPairs_cons h.isItem h.isBlank (h.findKey? rfl) hx (hkey ▸ hfresh) ?_
    (hkey ▸ hmore), hkey'⟩
  have hnil : l.content.drop (size (quote key) + 1) = [] := h.drop
  have hblanks : blanks (l.content.drop (size (quote key) + 1)) = 0 := by
    rw [hnil]
    rfl
  rw [hblanks, Nat.add_zero, hnil]
  exact hvalue _

end Line.IsKeyed

end Polyglot.Data
