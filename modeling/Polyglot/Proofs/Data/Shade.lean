import Polyglot.Proofs.Text.Shade
import Polyglot.Proofs.Data.Scan

/-!
# Scans of the shadow

Every scan of the data reader goes the same way over a list of octets and over its shadow, and the
lines of the shadow of a text are the shadows of its lines.
-/

namespace Polyglot.Data

open Text

variable {cs : List Char} {c d quote : Char} {previous : Option Char} {o : Option Char}

/-! ## Delimiters -/

@[simp] theorem isBlank_shade (c : Char) : isBlank (shade c) = isBlank c := by
  simp (disch := decide) only [isBlank, shade_beq]

@[simp] theorem isFlowBlank_shade (c : Char) : isFlowBlank (shade c) = isFlowBlank c := by
  simp (disch := decide) only [isFlowBlank, isBlank_shade, shade_beq]

theorem takeWhile_shade {p : Char → Bool} (hp : ∀ c, p (shade c) = p c) (cs : List Char) :
    (cs.map shade).takeWhile p = (cs.takeWhile p).map shade := by
  rw [List.takeWhile_map]
  exact congrArg _ (congrArg (cs.takeWhile ·) (funext hp))

theorem dropWhile_shade {p : Char → Bool} (hp : ∀ c, p (shade c) = p c) (cs : List Char) :
    (cs.map shade).dropWhile p = (cs.dropWhile p).map shade := by
  rw [List.dropWhile_map]
  exact congrArg _ (congrArg (cs.dropWhile ·) (funext hp))

theorem any_shade {p : Char → Bool} (hp : ∀ c, p (shade c) = p c) (o : Option Char) :
    (o.map shade).any p = o.any p := by
  rcases o with _ | c
  · rfl
  · exact hp c

theorem all_shade {p : Char → Bool} (hp : ∀ c, p (shade c) = p c) (o : Option Char) :
    (o.map shade).all p = o.all p := by
  rcases o with _ | c
  · rfl
  · exact hp c

/-! ## Scans of a line -/

@[simp] theorem blanks_shade (cs : List Char) : blanks (cs.map shade) = blanks cs := by
  rw [blanks, takeWhile_shade isBlank_shade, List.length_map, blanks]

@[simp] theorem trimEnd_shade (cs : List Char) :
    trimEnd (cs.map shade) = (trimEnd cs).map shade := by
  rw [trimEnd, ← List.map_reverse, dropWhile_shade isBlank_shade, ← List.map_reverse, trimEnd]

@[simp] theorem isUsedUp_shade (cs : List Char) : isUsedUp (cs.map shade) = isUsedUp cs := by
  rw [isUsedUp, List.head?_map, all_shade fun c => shade_beq (by decide), isUsedUp]

theorem beforeComment_shade (previous : Option Char) (cs : List Char) :
    beforeComment (previous.map shade) (cs.map shade) = beforeComment previous cs := by
  induction cs generalizing previous with
  | nil => rfl
  | cons c cs ih =>
    have ih := ih (some c)
    rw [Option.map_some] at ih
    simp (disch := decide) only [List.map_cons, beforeComment, any_shade isBlank_shade,
      shade_eq_iff, ih]

@[simp] theorem plainLength_shade (cs : List Char) :
    plainLength (cs.map shade) = plainLength cs := by
  have hcomment := beforeComment_shade none cs
  rw [Option.map_none] at hcomment
  rw [plainLength, hcomment, ← List.map_take, trimEnd_shade, List.length_map, plainLength]

theorem beforeClosingQuote_singleton (quote c : Char) : beforeClosingQuote? quote [c] =
    if c = '\\' then none else if c = quote then some 0 else none := by
  by_cases hc : c = '\\'
  · rw [hc, beforeClosingQuote?, if_pos rfl]
  · rw [beforeClosingQuote?.eq_4 quote c hc, if_neg hc]

theorem beforeClosingQuote_shade (hq : IsMark quote) :
    (cs : List Char) → beforeClosingQuote? quote (cs.map shade) = beforeClosingQuote? quote cs
  | [] => rfl
  | [c] => by
    simp (disch := decide) only [List.map_cons, List.map_nil, beforeClosingQuote_singleton,
      shade_eq_iff, shade_eq_iff hq]
  | c :: d :: rest => by
    have hrest := beforeClosingQuote_shade hq rest
    have htail := beforeClosingQuote_shade hq (d :: rest)
    rw [List.map_cons] at htail
    simp (disch := decide) only [List.map_cons, beforeClosingQuote?, shade_eq_iff,
      shade_eq_iff hq, hrest, htail]

theorem beginsSeparator_cons (c : Char) (cs : List Char) :
    beginsSeparator (c :: cs) = (c == ':' && cs.head?.all isBlank) := by
  unfold beginsSeparator
  split
  · next rest h =>
    obtain ⟨rfl, rfl⟩ := List.cons.inj h
    rfl
  · next h => 
    have hc : ¬ c = ':' := fun hc => h cs (hc ▸ rfl)
    simp [hc]

@[simp] theorem beginsSeparator_shade (cs : List Char) :
    beginsSeparator (cs.map shade) = beginsSeparator cs := by
  rcases cs with _ | ⟨c, cs⟩
  · rfl
  · rw [List.map_cons, beginsSeparator_cons, beginsSeparator_cons, shade_beq (by decide),
      List.head?_map, all_shade isBlank_shade]

theorem beforeSeparator_shade (previous : Option Char) (cs : List Char) :
    beforeSeparator? (previous.map shade) (cs.map shade) = beforeSeparator? previous cs := by
  induction cs generalizing previous with
  | nil => rfl
  | cons c cs ih =>
    have ih := ih (some c)
    rw [Option.map_some] at ih
    have hsep := beginsSeparator_shade (c :: cs)
    rw [List.map_cons] at hsep
    simp (disch := decide) only [List.map_cons, beforeSeparator?, any_shade isBlank_shade,
      shade_eq_iff, ih, hsep]

theorem findKey_cons (c : Char) (rest : List Char) : findKey? (c :: rest) =
    if c = '[' ∨ c = '\x7b' ∨ c = '#' then none
    else if c = '"' ∨ c = '\'' then
      (beforeClosingQuote? c rest).bind fun n =>
        let key := n + 2
        let colon := key + blanks ((c :: rest).drop key)
        if beginsSeparator ((c :: rest).drop colon) then some ⟨key, colon + 1⟩ else none
    else (beforeSeparator? none (c :: rest)).map fun n =>
      ⟨(trimEnd ((c :: rest).take n)).length, n + 1⟩ := by
  unfold findKey?
  split
  · next h => cases h
  · next h => rw [if_pos (by simp_all)]
  · next h => rw [if_pos (by simp_all)]
  · next h => rw [if_pos (by simp_all)]
  · next d tail h1 h2 h3 h => 
    obtain ⟨rfl, rfl⟩ := List.cons.inj h
    have hne : ¬ (c = '[' ∨ c = '\x7b' ∨ c = '#') := by
      rintro (hc | hc | hc)
      · exact h1 hc
      · exact h2 hc
      · exact h3 hc
    rw [if_neg hne]

@[simp] theorem findKey_shade (cs : List Char) : findKey? (cs.map shade) = findKey? cs := by
  rcases cs with _ | ⟨c, rest⟩
  · rfl
  · have hseparator := beforeSeparator_shade none (c :: rest)
    rw [Option.map_none] at hseparator
    rw [List.map_cons, findKey_cons, findKey_cons, ← List.map_cons, hseparator]
    simp (disch := decide) only [shade_eq_iff, ← List.map_take, ← List.map_drop, trimEnd_shade,
      blanks_shade, beginsSeparator_shade, List.length_map]
    split_ifs with hopen hquote
    · rfl
    · have hmark : IsMark c := by rcases hquote with rfl | rfl <;> decide
      rw [(shade_eq_iff hmark).2 rfl, beforeClosingQuote_shade hmark]
    · rfl

/-! ## Scans of a flow collection -/

theorem contains_shade {l : List Char} (hl : ∀ d ∈ l, IsMark d) (c : Char) :
    l.contains (shade c) = l.contains c := by
  rw [Bool.eq_iff_iff, List.contains_iff_mem, List.contains_iff_mem]
  constructor
  · intro h
    have hc : c = shade c := (shade_eq_iff (hl _ h)).1 rfl
    rwa [← hc] at h
  · intro h
    rwa [(shade_eq_iff (hl _ h)).2 rfl]

theorem extent_shade : (cs : List Char) → (depth : ℕ) → (open? : Option Char) → (comment : Bool) →
    (previous : Option Char) → (∀ q, open? = some q → IsMark q) →
      extent? depth open? comment (previous.map shade) (cs.map shade) =
        extent? depth open? comment previous cs
  | [], _, _, _, _, _ => rfl
  | c :: cs, depth, open?, comment, previous, hopen => by
    have ih (depth : ℕ) {open? : Option Char} (hopen : ∀ q, open? = some q → IsMark q)
        (comment : Bool) := extent_shade cs depth open? comment (some c) hopen
    have hnone : ∀ q, none = some q → IsMark q := fun q hq => nomatch hq
    simp only [Option.map_some] at ih
    rw [List.map_cons]
    unfold extent?
    simp (disch := decide) only [shade_eq_iff, bne, shade_beq, any_shade isFlowBlank_shade,
      ih _ hnone]
    rcases comment with _ | _
    · rcases open? with _ | q
      · by_cases hquote : c = '"' ∨ c = '\''
        · have hmark : IsMark c := by rcases hquote with rfl | rfl <;> decide
          have hopen : ∀ q, some c = some q → IsMark q := fun q hq => Option.some.inj hq ▸ hmark
          have ih := ih depth hopen false
          rw [(shade_eq_iff hmark).2 rfl] at ih ⊢
          simp only [if_pos hquote, ih]
        · simp only [if_neg hquote]
      · have hq := hopen q rfl
        have hopen : ∀ p, (if c = q then none else some q) = some p → IsMark p := by
          intro p hp
          split_ifs at hp
          exact Option.some.inj hp ▸ hq
        have hescape := fun d cs' (h : cs = d :: cs') =>
          extent_shade cs' depth (some q) false (some d) fun p hp => Option.some.inj hp ▸ hq
        simp only [shade_eq_iff hq, ih depth hopen, Bool.false_eq_true, if_false]
        rcases cs with _ | ⟨d, cs'⟩
        · rfl
        · have hescape := hescape d cs' rfl
          rw [Option.map_some] at hescape
          simp only [List.map_cons, hescape]
    · rfl

theorem flowBlanks_shade (comment : Bool) (previous : Option Char) (cs : List Char) :
    flowBlanks comment (previous.map shade) (cs.map shade) = flowBlanks comment previous cs := by
  induction cs generalizing comment previous with
  | nil => rfl
  | cons c cs ih =>
    have ih (comment : Bool) := ih comment (some c)
    simp only [Option.map_some] at ih
    simp (disch := decide) only [List.map_cons, flowBlanks, any_shade isFlowBlank_shade,
      isFlowBlank_shade, shade_eq_iff, bne, shade_beq, ih]

theorem flowPlainLength_shade (previous : Option Char) (cs : List Char) :
    flowPlainLength (previous.map shade) (cs.map shade) = flowPlainLength previous cs := by
  induction cs generalizing previous with
  | nil => rfl
  | cons c cs ih =>
    have ih := ih (some c)
    rw [Option.map_some] at ih
    have hdelimiter := contains_shade (l := ",[]\x7b\x7d\n".toList) fun d hd => by
      simp at hd
      rcases hd with rfl | rfl | rfl | rfl | rfl | rfl <;> decide
    have hbehind := contains_shade (l := " \t\r\n,]\x7d".toList) fun d hd => by
      simp at hd
      rcases hd with rfl | rfl | rfl | rfl | rfl | rfl | rfl <;> decide
    simp (disch := decide) only [List.map_cons, flowPlainLength, any_shade isBlank_shade,
      shade_eq_iff, ih, List.head?_map, hdelimiter, all_shade hbehind]

/-! ## Lines -/

/-- The line of the shadow. -/
def Line.shade (l : Line) : Line := { l with content := l.content.map Text.shade }

namespace Line

@[simp] theorem start_shade (l : Line) : l.shade.start = l.start := by rw [shade]

@[simp] theorem indent_shade (l : Line) : l.shade.indent = l.indent := by rw [shade]

@[simp] theorem breakStart_shade (l : Line) : l.shade.breakStart = l.breakStart := by rw [shade]

@[simp] theorem content_shade (l : Line) : l.shade.content = l.content.map Text.shade := rfl

@[simp] theorem contentStart_shade (l : Line) : l.shade.contentStart = l.contentStart := by
  rw [contentStart, start_shade, indent_shade, contentStart]

@[simp] theorem contentEnd_shade (l : Line) : l.shade.contentEnd = l.contentEnd := by
  simp [contentEnd]

@[simp] theorem isEmpty_shade (l : Line) : l.shade.isEmpty = l.isEmpty := by simp [isEmpty]

@[simp] theorem isBlank_shade (l : Line) : l.shade.isBlank = l.isBlank :=
  isUsedUp_shade l.content

theorem isItem_eq (l : Line) :
    l.isItem = (decide (l.content.head? = some '-') &&
      l.content.tail.head?.all Data.isBlank) := by
  unfold isItem
  split
  · next rest h => simp [h]
  · next h =>
    rcases hc : l.content with _ | ⟨c, rest⟩
    · rfl
    · have hne : ¬ c = '-' := fun heq => h rest (by rw [hc, heq])
      simp [hne]

@[simp] theorem isItem_shade (l : Line) : l.shade.isItem = l.isItem := by
  rw [isItem_eq, isItem_eq]
  simp (disch := decide) only [shade, List.head?_map, ← List.map_tail, map_shade_eq_some_iff,
    all_shade Data.isBlank_shade]

theorem advance_shade (l : Line) (k : ℕ) : l.shade.advance k = (l.advance k).shade := by
  simp only [advance, shade, List.map_drop]

end Line

@[simp] theorem continuesPlain_shade (parentIndent : ℕ) (l : Line) :
    continuesPlain parentIndent l.shade = continuesPlain parentIndent l := by
  simp only [continuesPlain, l.isBlank_shade, l.indent_shade, l.content_shade, findKey_shade]

theorem ofOctets_shade (start : ℕ) (cs : List Char) :
    Line.ofOctets start (cs.map shade) = (Line.ofOctets start cs).shade := by
  unfold Line.ofOctets
  dsimp only
  simp (disch := decide) only [List.getLast?_map, map_shade_eq_some_iff, Line.shade,
    ← List.map_dropLast]
  split_ifs <;>
    simp only [takeWhile_shade isBlank_shade, List.length_map, ← List.map_drop, trimEnd_shade]

theorem pieces_shade (start : ℕ) (piece cs : List Char) :
    pieces start (piece.map shade) (cs.map shade) =
      (pieces start piece cs).map fun p => (p.1, p.2.map shade) := by
  induction cs generalizing start piece with
  | nil => simp [pieces]
  | cons c cs ih =>
    simp (disch := decide) only [List.map_cons, pieces, shade_eq_iff]
    split_ifs
    · have ih := ih (start + piece.length + 1) []
      rw [List.map_nil] at ih
      rw [List.length_map, ih, List.map_cons, List.map_reverse]
    · exact ih start (c :: piece)

theorem pieces_shadow (s : String) : pieces 0 [] (octets (shadow s)) =
    (pieces 0 [] (octets s)).map fun p => (p.1, p.2.map shade) := by
  rw [octets_shadow]
  exact pieces_shade 0 [] (octets s)

theorem linesOf_shadow (s : String) : linesOf (shadow s) = (linesOf s).map Line.shade := by
  rw [linesOf, pieces_shadow, List.map_map, linesOf, List.map_map]
  exact List.map_congr_left fun p _ => ofOctets_shade p.1 p.2

theorem tabErrors_shadow (s : String) : tabErrors (shadow s) = tabErrors s := by
  rw [tabErrors, pieces_shadow, List.filterMap_map, tabErrors]
  apply List.filterMap_congr
  intro p _
  show tabError? (p.1, p.2.map shade) = tabError? p
  have hblank : (Line.ofOctets p.1 (p.2.map shade)).isBlank = (Line.ofOctets p.1 p.2).isBlank := by
    rw [ofOctets_shade, Line.isBlank_shade]
  have htab := takeWhile_shade (p := (· != '\t')) fun c => by
    rw [bne, shade_beq (by decide), bne]
  have hmem : ((p.2.takeWhile isBlank).map shade).contains '\t' =
      (p.2.takeWhile isBlank).contains '\t' := by
    rw [Bool.eq_iff_iff, List.contains_iff_mem, List.contains_iff_mem, List.mem_map]
    simp (disch := decide) only [shade_eq_iff, exists_eq_right]
  simp only [tabError?, hblank, takeWhile_shade isBlank_shade, htab, List.length_map, hmem]

end Polyglot.Data
