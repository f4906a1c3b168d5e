import Polyglot.Proofs.Data.Block
import Polyglot.Proofs.Outcome

/-!
# Torn characters

A text is read together with its shadow. The shadow has a document, for it is ASCII. Where the
reader of the text tears a character, the reader of the shadow reports an error that cuts this
character, and nowhere else does it report one that cuts any. So the errors of the shadow decide
whether the text has a document.
-/

namespace Polyglot.Data

open Text

variable {α β γ : Type} {s : String} {i start opened : ℕ} {cs : List Char} {c : Cursor} {l : Line}
  {rest : List Line}

/-! ## Two readings -/

/-- What is taken from the shadow mirrors the reading of the text: as much is taken, and all errors
fit; or the text tears, and an error cuts a character. -/
def Mirrors (s : String) (r : Except TornCharacter (Taken α)) (t' : Taken β) : Prop :=
  match r with
  | .ok t => t'.used = t.used ∧ ∀ e ∈ t'.errors, e.span.Fits s
  | .error _ => ∃ e ∈ t'.errors, ¬ e.span.Fits s

variable {r : Except TornCharacter (Taken α)} {t' : Taken β} {u' : Taken γ}

theorem mirrors_ok {t : Taken α} (hused : t'.used = t.used)
    (hfit : ∀ e ∈ t'.errors, e.span.Fits s) : Mirrors s (.ok t) t' := ⟨hused, hfit⟩

theorem Mirrors.bind {δ : Type} {f : Taken α → Except TornCharacter (Taken δ)}
    (h : Mirrors s r t') (hsub : ∀ e ∈ t'.errors, e ∈ u'.errors)
    (hf : ∀ t, r = .ok t → t'.used = t.used → (∀ e ∈ t'.errors, e.span.Fits s) →
      Mirrors s (f t) u') : Mirrors s (r >>= f) u' := by
  rcases r with e | t
  · obtain ⟨e, he, hcut⟩ := h
    exact ⟨e, hsub e he, hcut⟩
  · exact hf t rfl h.1 h.2

/-- A result of other shape, with the same errors. -/
theorem Mirrors.map {δ : Type} {f : Taken α → Taken δ} (h : Mirrors s r t')
    (herrors : u'.errors = t'.errors) (hused : ∀ t, t'.used = t.used → u'.used = (f t).used) :
    Mirrors s (r.map f) u' := by
  rcases r with e | t
  · obtain ⟨e, he, hcut⟩ := h
    exact ⟨e, herrors ▸ he, hcut⟩
  · exact ⟨hused t h.1, herrors ▸ h.2⟩

/-- An entry of a flow collection, and what is read behind it: recovery either stops between
characters, or cuts one, and then nothing more is read of the text. -/
theorem mirrors_entry {δ : Type} {bound torn : Prop} {before finish : List Error} {k : ℕ} {x : γ}
    {f : Taken α → Except TornCharacter (Taken δ)}
    (hf : ∀ t, ∃ u, f t = .ok u ∧ u.used = k + t.used) (hbefore : ∀ e ∈ before, e.span.Fits s)
    (hlands : (bound ∧ ∀ e ∈ finish, e.span.Fits s) ∨ (torn ∧ ∃ e ∈ finish, ¬ e.span.Fits s))
    (hmore : bound → Mirrors s r t') (htorn : torn → ∃ e, r = .error e) :
    Mirrors s (r >>= f) ⟨x, k + t'.used, before ++ finish ++ t'.errors⟩ := by
  rcases hlands with ⟨hbound, hfinish⟩ | ⟨hcutting, e, he, hcut⟩
  · refine (hmore hbound).bind (fun e he => List.mem_append_right _ he) fun t _ hused hfit => ?_
    obtain ⟨u, hu, huse⟩ := hf t
    rw [hu]
    refine mirrors_ok (by rw [hused, huse]) ?_
    simp only [List.forall_mem_append]
    exact ⟨⟨hbefore, hfinish⟩, hfit⟩
  · obtain ⟨_, htear⟩ := htorn hcutting
    rw [htear]
    exact ⟨e, List.mem_append_left _ (List.mem_append_right _ he), hcut⟩

/-! ## Flow collections -/

@[simp] theorem Cursor.rest_shade_eq_nil : c.shade.rest = [] ↔ c.rest = [] := List.map_eq_nil_iff

theorem Cursor.head_rest_shade {d : Char} (hd : IsMark d) :
    c.shade.rest.head? = some d ↔ c.rest.head? = some d := by
  rw [shade, List.head?_map, map_shade_eq_some_iff hd]

theorem finishEntry_shade {closer : Char} (hcloser : IsMark closer) (c : Cursor) :
    finishEntry c.shade closer = finishEntry c closer := by
  have hrest : c.shade.rest.drop c.gap = (c.rest.drop c.gap).map shade := List.map_drop.symm
  rw [finishEntry_eq, finishEntry_eq, c.gap_shade, hrest]
  rcases c.rest.drop c.gap with _ | ⟨d, t⟩
  · rfl
  · simp (disch := decide) only [List.map_cons, shade_eq_iff, shade_eq_iff hcloser]
    rfl

theorem flowValue_mirrors {t' : Taken Tree} (ht' : flowValue (shadow s) c.shade = .ok t')
    (htree : c.skip.rest.head? = some ':' → ∀ t', flowTree (shadow s) (c.skip.advance 1).shade =
      .ok t' → Mirrors s (flowTree s (c.skip.advance 1)) t') :
    Mirrors s (flowValue s c) t' := by
  unfold flowValue at ht' ⊢
  simp (disch := decide) only [c.skip_shade, c.gap_shade, Cursor.head_rest_shade,
    Cursor.advance_shade] at ht'
  split_ifs at ht' ⊢ with hcolon
  · obtain ⟨u', hu', rfl⟩ := exists_of_map_eq_ok ht'
    exact (htree hcolon u' hu').map rfl fun t hused => congrArg (c.gap + 1 + ·) hused
  · obtain rfl := Except.ok.inj ht'
    exact mirrors_ok rfl forall_errors_nil

mutual

theorem flowTree_mirrors (c : Cursor) (h : Stretch s c.offset c.rest) {t' : Taken Tree}
    (ht' : flowTree (shadow s) c.shade = .ok t') : Mirrors s (flowTree s c) t' := by
  have hskip := Cursor.stretch_skip h
  rw [flowTree_eq] at ht' ⊢
  simp (disch := decide) only [c.skip_shade, c.gap_shade, Cursor.rest_shade_eq_nil,
    Cursor.head_rest_shade, Cursor.advance_shade] at ht'
  split_ifs at ht' ⊢ with hnil hseq hmap
  · obtain rfl := Except.ok.inj ht'
    exact mirrors_ok rfl forall_errors_nil
  · have hlen := Cursor.length_skip_pos hnil
    obtain ⟨-, hnext⟩ := Cursor.stretch_skip_advance h hseq (by decide)
    obtain ⟨items', hitems', ht'⟩ := exists_of_bind_eq_ok ht'
    obtain rfl := Except.ok.inj ht'
    refine (flowItems_mirrors c.skip.offset (c.skip.advance 1) hnext hskip.start
      (Nat.le_add_right ..) hitems').bind (fun e he => he) fun items _ hused hfit => ?_
    exact mirrors_ok (congrArg (c.gap + 1 + ·) hused) hfit
  · have hlen := Cursor.length_skip_pos hnil
    obtain ⟨-, hnext⟩ := Cursor.stretch_skip_advance h hmap (by decide)
    obtain ⟨pairs', hpairs', ht'⟩ := exists_of_bind_eq_ok ht'
    obtain rfl := Except.ok.inj ht'
    refine (flowPairs_mirrors c.skip.offset [] [] (c.skip.advance 1) hnext hskip.start
      (Nat.le_add_right ..) hpairs').bind (fun e he => he) fun pairs _ hused hfit => ?_
    exact mirrors_ok (congrArg (c.gap + 1 + ·) hused) hfit
  · obtain ⟨scalar, scalar', hscalar, hscalar', ⟨hwithin, -⟩, halike⟩ := flowKey_both hskip
    rw [hscalar'] at ht'
    obtain rfl := Except.ok.inj ht'
    rw [hscalar]
    exact mirrors_ok (congrArg (c.gap + ·) halike.used) (halike.errors ▸ hwithin.errors)
termination_by 2 * c.rest.length + 1
decreasing_by
  all_goals
    simp only [Cursor.length_rest_advance]
    omega

theorem flowItems_mirrors (opened : ℕ) (c : Cursor) (h : Stretch s c.offset c.rest)
    (hb : isBoundary s opened = true) (hle : opened ≤ c.offset) {t' : Taken (List Tree)}
    (ht' : flowItems (shadow s) opened c.shade = .ok t') : Mirrors s (flowItems s opened c) t' := by
  have hskip := Cursor.stretch_skip h
  rw [flowItems_eq] at ht' ⊢
  simp (disch := decide) only [c.skip_shade, c.gap_shade, c.stop_shade, Cursor.rest_shade_eq_nil,
    Cursor.head_rest_shade, Cursor.advance_shade, finishEntry_shade] at ht'
  split_ifs at ht' ⊢ with hnil hclose hcomma
  · obtain rfl := Except.ok.inj ht'
    exact mirrors_ok rfl (unterminated_fits h hb hle)
  · obtain rfl := Except.ok.inj ht'
    exact mirrors_ok rfl forall_errors_nil
  · have hlen := Cursor.length_skip_pos hnil
    obtain ⟨-, hnext⟩ := Cursor.stretch_skip_advance h hcomma (by decide)
    obtain ⟨more', hmore', ht'⟩ := exists_of_bind_eq_ok ht'
    obtain rfl := Except.ok.inj ht'
    refine (flowItems_mirrors opened (c.skip.advance 1) hnext hb
      (Cursor.le_offset_advance hle 1) hmore').bind (fun e he => he) fun more _ hused hfit => ?_
    exact mirrors_ok (congrArg (c.gap + 1 + ·) hused) hfit
  · have hlen := Cursor.length_skip_pos hnil
    obtain ⟨item', hitem', ht'⟩ := exists_of_bind_eq_ok ht'
    obtain ⟨more', hmore', ht'⟩ := exists_of_bind_eq_ok ht'
    obtain rfl := Except.ok.inj ht'
    refine (flowTree_mirrors c.skip hskip hitem').bind (fun e he =>
      List.mem_append_left _ (List.mem_append_left _ he)) fun item hitem hused hfit => ?_
    obtain ⟨hwithin, hmoves⟩ : item.Within s c.skip.offset c.skip.rest Tree.spans ∧ _ := by
      have hreads := flowTree_reads c.skip hskip
      rwa [hitem] at hreads
    obtain ⟨hstep, hlands⟩ := lands_entry ']' hskip hnil hwithin.used_le hwithin.boundary hmoves
    have hpos : 1 ≤ max 1 (item.used + (finishEntry (c.skip.advance item.used) ']').used) :=
      Nat.le_max_left ..
    rw [hused] at hmore' ⊢
    dsimp only
    generalize max 1 (item.used + (finishEntry (c.skip.advance item.used) ']').used) = step at *
    refine mirrors_entry (fun more => ⟨_, rfl, rfl⟩) hfit hlands (fun hbound => ?_)
      fun htorn => flowItems_torn opened (Cursor.torn_advance htorn hstep)
    have hnext := Cursor.stretch_advance hskip hstep hbound
    exact flowItems_mirrors opened (c.skip.advance step) hnext hb
      (Cursor.le_offset_advance hle step) hmore'
termination_by 2 * c.rest.length + 2
decreasing_by
  all_goals
    try simp only [Cursor.length_rest_advance]
    omega

theorem flowPairs_mirrors (opened : ℕ) (seen seen' : List String) (c : Cursor)
    (h : Stretch s c.offset c.rest) (hb : isBoundary s opened = true) (hle : opened ≤ c.offset)
    {t' : Taken (List (Scalar × Tree))}
    (ht' : flowPairs (shadow s) opened seen' c.shade = .ok t') :
    Mirrors s (flowPairs s opened seen c) t' := by
  have hskip := Cursor.stretch_skip h
  rw [flowPairs_eq] at ht' ⊢
  simp (disch := decide) only [c.skip_shade, c.gap_shade, c.stop_shade, Cursor.rest_shade_eq_nil,
    Cursor.head_rest_shade, Cursor.advance_shade, finishEntry_shade] at ht'
  split_ifs at ht' ⊢ with hnil hclose hcomma
  · obtain rfl := Except.ok.inj ht'
    exact mirrors_ok rfl (unterminated_fits h hb hle)
  · obtain rfl := Except.ok.inj ht'
    exact mirrors_ok rfl forall_errors_nil
  · have hlen := Cursor.length_skip_pos hnil
    obtain ⟨-, hnext⟩ := Cursor.stretch_skip_advance h hcomma (by decide)
    obtain ⟨more', hmore', ht'⟩ := exists_of_bind_eq_ok ht'
    obtain rfl := Except.ok.inj ht'
    refine (flowPairs_mirrors opened seen seen' (c.skip.advance 1) hnext hb
      (Cursor.le_offset_advance hle 1) hmore').bind (fun e he => he) fun more _ hused hfit => ?_
    exact mirrors_ok (congrArg (c.gap + 1 + ·) hused) hfit
  · have hlen := Cursor.length_skip_pos hnil
    obtain ⟨key, key', hkey, hkey', ⟨hkeyWithin, hkeyMoves⟩, halike⟩ := flowKey_both hskip
    obtain ⟨_, heq, ht'⟩ := exists_of_bind_eq_ok ht'
    obtain rfl := Except.ok.inj (hkey'.symm.trans heq)
    obtain ⟨value', hvalue', ht'⟩ := exists_of_bind_eq_ok ht'
    obtain ⟨more', hmore', ht'⟩ := exists_of_bind_eq_ok ht'
    obtain rfl := Except.ok.inj ht'
    rw [hkey]
    show Mirrors s (flowValue s (c.skip.advance key.used) >>= _) _
    rw [halike.used] at hvalue' hmore' ⊢
    have hafter := Cursor.stretch_advance hskip hkeyWithin.used_le hkeyWithin.boundary
    have hlen' : (c.skip.advance key.used).rest.length = c.skip.rest.length - key.used :=
      Cursor.length_rest_advance ..
    have htree : (c.skip.advance key.used).skip.rest.head? = some ':' → ∀ t',
        flowTree (shadow s) ((c.skip.advance key.used).skip.advance 1).shade = .ok t' →
        Mirrors s (flowTree s ((c.skip.advance key.used).skip.advance 1)) t' := by
      intro hcolon t' ht'
      have hlen'' := Cursor.length_skip_pos (Cursor.ne_nil_of_head hcolon)
      exact flowTree_mirrors _ (Cursor.stretch_skip_advance hafter hcolon (by decide)).2 ht'
    refine (flowValue_mirrors hvalue' htree).bind (fun e he => by simp [he])
      fun value hvalue hused hfit => ?_
    have hwithin : value.Within s (c.skip.advance key.used).offset
        (c.skip.advance key.used).rest Tree.spans := by
      have hreads := flowValue_reads hafter fun hcolon => (flowTree_reads _
        (Cursor.stretch_skip_advance hafter hcolon (by decide)).2).imp fun _ ht => ht.1
      rwa [hvalue] at hreads
    obtain ⟨hstep, hlands⟩ := lands_pair hskip hnil hkeyWithin hkeyMoves hwithin
    have hpos : 1 ≤ max 1 (key.used + value.used +
        (finishEntry (c.skip.advance (key.used + value.used)) '\x7d').used) := Nat.le_max_left ..
    have hkeyErrors : ∀ e ∈ key'.errors, e.span.Fits s := halike.errors ▸ hkeyWithin.errors
    have hkeyFits : key'.value.span.Fits s :=
      halike.span ▸ hkeyWithin.value _ List.mem_cons_self
    rw [hused] at hmore' ⊢
    dsimp only
    generalize max 1 (key.used + value.used +
      (finishEntry (c.skip.advance (key.used + value.used)) '\x7d').used) = step at *
    refine mirrors_entry (fun more => ⟨_, rfl, rfl⟩) (List.forall_mem_append.2
      ⟨List.forall_mem_append.2 ⟨hkeyErrors, hfit⟩, duplicateErrors_fit hkeyFits⟩) hlands
      (fun hbound => ?_) fun htorn => flowPairs_torn opened (key.value.key :: seen)
        (Cursor.torn_advance htorn hstep)
    have hnext := Cursor.stretch_advance hskip hstep hbound
    exact flowPairs_mirrors opened _ _ (c.skip.advance step) hnext hb
      (Cursor.le_offset_advance hle step) hmore'
termination_by 2 * c.rest.length + 2
decreasing_by
  all_goals
    try simp only [Cursor.length_rest_advance]
    omega

end

/-! ## Values that begin on a line -/

@[simp] theorem trailingErrors_shade (start : ℕ) (cs : List Char) :
    trailingErrors start (cs.map shade) = trailingErrors start cs := by
  simp only [trailingErrors, blanks_shade, ← List.map_drop, isUsedUp_shade, List.length_map]

theorem flowRegionEnd_shade (parentIndent stop : ℕ) (rest : List Line) :
    flowRegionEnd parentIndent stop (rest.map Line.shade) =
      flowRegionEnd parentIndent stop rest := by
  induction rest generalizing stop with
  | nil => rfl
  | cons l ls ih =>
    have hcloser := any_shade (p := fun c => c == ']' || c == '\x7d')
      (fun c => by rw [shade_beq (by decide), shade_beq (by decide)]) l.content.head?
    simp only [List.map_cons, flowRegionEnd, l.isBlank_shade, l.indent_shade, l.breakStart_shade,
      l.content_shade, List.head?_map, hcloser, ih]

theorem flowStop_shadow (s : String) (start : ℕ) (cs : List Char) (parentIndent : ℕ)
    (rest : List Line) :
    flowStop (shadow s) start (cs.map shade) parentIndent (rest.map Line.shade) =
      flowStop s start cs parentIndent rest := by
  have hextent := extent_shade (octetsAt s ⟨start, flowRegionEnd parentIndent (start + cs.length)
    rest⟩) 0 none false none fun q hq => nomatch hq
  rw [Option.map_none] at hextent
  simp only [flowStop, flowRegionEnd_shade, List.length_map, octetsAt_shadow, hextent]

theorem takeWhile_start_shade (stop : ℕ) (rest : List Line) :
    (rest.map Line.shade).takeWhile (fun l => l.start < stop) =
      (rest.takeWhile fun l => l.start < stop).map Line.shade := by
  rw [List.takeWhile_map]
  rfl

theorem flowLineEnd_shade (start : ℕ) (cs : List Char) (stop : ℕ) (rest : List Line) :
    flowLineEnd start (cs.map shade) stop (rest.map Line.shade) =
      flowLineEnd start cs stop rest := by
  rw [flowLineEnd, takeWhile_start_shade, List.getLast?_map, Option.map_map, List.length_map,
    show Line.contentEnd ∘ Line.shade = Line.contentEnd from funext Line.contentEnd_shade,
    flowLineEnd]

theorem blockFlow_mirrors (parentIndent : ℕ) (h : Stretch s start cs) (hrest : LinesFrom s i rest)
    {t' : Taken Tree} (ht' : blockFlow (shadow s) start (cs.map shade) parentIndent
      (rest.map Line.shade) = .ok t') : Mirrors s (blockFlow s start cs parentIndent rest) t' := by
  rw [blockFlow_eq] at ht' ⊢
  simp only [flowStop_shadow, flowLineEnd_shade, takeWhile_start_shade, List.length_map,
    octetsAt_shadow, trailingErrors_shade] at ht'
  obtain ⟨tree', htree', ht'⟩ := exists_of_bind_eq_ok ht'
  obtain rfl := Except.ok.inj ht'
  have hregion := stretch_octetsAt h.start (isBoundary_flowStop parentIndent h hrest)
  dsimp only
  generalize octetsAt s ⟨start, flowStop s start cs parentIndent rest⟩ = region at *
  refine (flowTree_mirrors ⟨start, none, region⟩ hregion htree').bind
    (fun e he => List.mem_append_left _ he) fun tree htree hused hfit => ?_
  have hreads := flowTree_reads ⟨start, none, region⟩ hregion
  rw [htree] at hreads
  obtain ⟨hwithin, -⟩ := hreads
  refine mirrors_ok rfl (List.forall_mem_append.2 ⟨hfit, ?_⟩)
  rw [hused]
  exact trailingErrors_fit (stretch_octetsAt hwithin.boundary (isBoundary_flowLineEnd h hrest))

/-- A scalar that both readings give. -/
theorem Both.mirrors {r r' : Except TornCharacter (Taken Scalar)} (h : Both (FitsAlike s) r r')
    {t' : Taken Scalar} (ht' : r' = .ok t') : Mirrors s r t' ∧ t'.value.span.Fits s := by
  obtain ⟨t, _, rfl, rfl, ht, halike⟩ := h
  obtain rfl := Except.ok.inj ht'
  exact ⟨⟨halike.used, halike.errors ▸ ht.errors⟩, halike.span ▸ ht.value _ List.mem_cons_self⟩

theorem inlineValue_mirrors (parentIndent : ℕ) (h : Stretch s start cs)
    (hi : start + cs.length ≤ i) (hrest : LinesFrom s i rest) {t' : Taken Tree}
    (ht' : inlineValue (shadow s) start (cs.map shade) parentIndent (rest.map Line.shade) =
      .ok t') : Mirrors s (inlineValue s start cs parentIndent rest) t' := by
  rw [inlineValue_eq] at ht' ⊢
  simp (disch := decide) only [List.head?_map, map_shade_eq_some_iff] at ht'
  split_ifs at ht' ⊢ with hquote hflow hblock
  · obtain ⟨q, tail, rfl, hmark⟩ : ∃ q tail, cs = q :: tail ∧ IsMark q := by
      rcases hquote with hq | hq <;> obtain ⟨tail, rfl⟩ := List.head?_eq_some_iff.1 hq
      · exact ⟨_, tail, rfl, by decide⟩
      · exact ⟨_, tail, rfl, by decide⟩
    obtain ⟨scalar, scalar', hscalar, hscalar', ⟨hwithin, -⟩, halike⟩ := quotedScalar_both h hmark
    rw [hscalar'] at ht'
    obtain rfl := Except.ok.inj ht'
    rw [hscalar]
    refine mirrors_ok rfl (List.forall_mem_append.2 ⟨halike.errors ▸ hwithin.errors, ?_⟩)
    rw [halike.used, ← List.map_drop, trailingErrors_shade]
    exact trailingErrors_fit (h.drop hwithin.boundary hwithin.used_le)
  · exact blockFlow_mirrors parentIndent h hrest ht'
  · obtain ⟨scalar', hscalar', ht'⟩ := exists_of_bind_eq_ok ht'
    obtain rfl := Except.ok.inj ht'
    exact ((blockScalar_both parentIndent h hi hrest).mirrors hscalar').1.bind (fun e he => he)
      fun scalar _ hused hfit => mirrors_ok hused hfit
  · obtain ⟨scalar', hscalar', ht'⟩ := exists_of_bind_eq_ok ht'
    obtain rfl := Except.ok.inj ht'
    exact ((blockPlain_both parentIndent h (by omega) hrest).mirrors hscalar').1.bind
      (fun e he => he) fun scalar _ hused hfit => mirrors_ok hused hfit

/-! ## Blocks -/

theorem nestedLine_shade (parentIndent : ℕ) (underKey : Bool) (rest : List Line) :
    nestedLine? parentIndent underKey (rest.map Line.shade) =
      (nestedLine? parentIndent underKey rest).map fun x => (x.1, x.2.shade) := by
  have hbefore : (rest.map Line.shade).takeWhile Line.isBlank =
      (rest.takeWhile Line.isBlank).map Line.shade := by
    rw [List.takeWhile_map, show Line.isBlank ∘ Line.shade = Line.isBlank from
      funext Line.isBlank_shade]
  unfold nestedLine?
  dsimp only
  rw [hbefore, List.length_map, List.getElem?_map]
  rcases rest[(rest.takeWhile Line.isBlank).length]? with _ | l
  · rfl
  · simp only [Option.map_some, l.indent_shade, l.isItem_shade]
    split_ifs <;> rfl

@[simp] theorem lineError_shade (fault : Fault) (l : Line) :
    lineError fault l.shade = lineError fault l := by
  simp only [lineError, Line.contentSpan, l.contentStart_shade, l.contentEnd_shade]

mutual

theorem block_mirrors (l : Line) (rest : List Line) (hl : l.Lies s)
    (hrest : LinesFrom s l.breakStart rest) {t' : Taken Tree}
    (ht' : block (shadow s) l.shade (rest.map Line.shade) = .ok t') :
    Mirrors s (block s l rest) t' := by
  have hlines : LinesFrom s l.start (l :: rest) := ⟨le_rfl, hl, hrest⟩
  rw [block] at ht' ⊢
  simp only [l.isItem_shade, l.content_shade, findKey_shade, l.indent_shade,
    l.contentStart_shade, ← List.map_cons] at ht'
  split_ifs at ht' ⊢ with hitem hkey
  · obtain ⟨items', hitems', ht'⟩ := exists_of_bind_eq_ok ht'
    obtain rfl := Except.ok.inj ht'
    exact (blockItems_mirrors l.indent (l :: rest) hlines hitems').bind (fun e he => he)
      fun items _ hused hfit => mirrors_ok (congrArg (· - 1) hused) hfit
  · obtain ⟨pairs', hpairs', ht'⟩ := exists_of_bind_eq_ok ht'
    obtain rfl := Except.ok.inj ht'
    exact (blockPairs_mirrors l.indent [] [] (l :: rest) hlines hpairs').bind (fun e he => he)
      fun pairs _ hused hfit => mirrors_ok (congrArg (· - 1) hused) hfit
  · exact inlineValue_mirrors _ hl.content hl.contentEnd_le hrest ht'
termination_by 2 * weight (l :: rest) + 1

theorem blockPairs_mirrors {i : ℕ} (indent : ℕ) (seen seen' : List String) :
    (lines : List Line) → LinesFrom s i lines → {t' : Taken (List (Scalar × Tree))} →
      blockPairs (shadow s) indent seen' (lines.map Line.shade) = .ok t' →
      Mirrors s (blockPairs s indent seen lines) t'
  | [], _, _, ht' => by
    rw [List.map_nil, blockPairs] at ht'
    obtain rfl := Except.ok.inj ht'
    rw [blockPairs]
    exact mirrors_ok rfl forall_errors_nil
  | l :: rest, h, t', ht' => by
    obtain ⟨-, hl, hrest⟩ := h
    have hweight := weight_cons l rest
    rw [List.map_cons, blockPairs] at ht'
    rw [blockPairs]
    simp only [l.isBlank_shade, l.indent_shade, l.isItem_shade, l.content_shade, findKey_shade,
      l.contentStart_shade, ← List.map_drop, ← List.map_take, blanks_shade, isUsedUp_shade,
      lineError_shade] at ht'
    have hskipped {errors : List Error} (herrors : ∀ e ∈ errors, e.span.Fits s)
        {more' : Taken (List (Scalar × Tree))}
        (hmore' : blockPairs (shadow s) indent seen' (rest.map Line.shade) = .ok more') :
        Mirrors s (do
          let more ← blockPairs s indent seen rest
          return ⟨more.value, more.used + 1, errors ++ more.errors⟩)
          (⟨more'.value, more'.used + 1, errors ++ more'.errors⟩ : Taken _) :=
      (blockPairs_mirrors indent seen seen' rest hrest hmore').bind
        (fun e he => List.mem_append_right _ he) fun more _ hused hfit =>
          mirrors_ok (congrArg (· + 1) hused) (List.forall_mem_append.2 ⟨herrors, hfit⟩)
    have hline (fault : Fault) : ∀ e ∈ [lineError fault l], e.span.Fits s :=
      lineError_fits hl forall_errors_nil
    split_ifs at ht' ⊢ with hblank hout hmisplaced
    · obtain ⟨more', hmore', ht'⟩ := exists_of_bind_eq_ok ht'
      obtain rfl := Except.ok.inj ht'
      exact hskipped forall_errors_nil hmore'
    · obtain rfl := Except.ok.inj ht'
      exact mirrors_ok rfl forall_errors_nil
    · obtain ⟨more', hmore', ht'⟩ := exists_of_bind_eq_ok ht'
      obtain rfl := Except.ok.inj ht'
      exact hskipped (hline .badIndentation) hmore'
    · rcases hkey : findKey? l.content with _ | extent
      · rw [hkey] at ht'
        obtain ⟨more', hmore', ht'⟩ := exists_of_bind_eq_ok ht'
        obtain rfl := Except.ok.inj ht'
        exact hskipped (hline .missingSeparator) hmore'
      · rw [hkey] at ht'
        have hpos := l.length_content_pos hblank
        obtain ⟨hvalueAt, hend⟩ := hl.stretch_value hkey
        have hseams := isSeam_findKey hkey
        have hkeyBoth := blockKey_both
          (hl.content.take (hl.content.isBoundary hseams.1) hseams.1.le_length)
        obtain ⟨key', hkey', ht'⟩ := exists_of_bind_eq_ok ht'
        obtain ⟨value', hvalue', ht'⟩ := exists_of_bind_eq_ok ht'
        obtain ⟨more', hmore', ht'⟩ := exists_of_bind_eq_ok ht'
        obtain rfl := Except.ok.inj ht'
        obtain ⟨hkeyMirrors, hkeyFits⟩ := hkeyBoth.mirrors hkey'
        refine hkeyMirrors.bind (fun e he => by simp [he]) fun key _ _ hkeyErrors => ?_
        have hvalue : Mirrors s
            (if isUsedUp (l.content.drop
                (extent.colonEnd + blanks (l.content.drop extent.colonEnd))) = true then
              blockNested s indent true (l.contentStart + extent.colonEnd) rest
            else inlineValue s
              (l.contentStart + (extent.colonEnd + blanks (l.content.drop extent.colonEnd)))
              (l.content.drop (extent.colonEnd + blanks (l.content.drop extent.colonEnd)))
              indent rest) value' := by
          split_ifs at hvalue' ⊢
          · exact blockNested_mirrors indent true _ rest hrest hvalue'
          · exact inlineValue_mirrors indent hvalueAt (hend ▸ hl.contentEnd_le) hrest hvalue'
        refine hvalue.bind (fun e he => by simp [he]) fun value _ hused hvalueErrors => ?_
        have hdrop := weight_drop_le rest value.used
        rw [hused] at hmore' ⊢
        refine (blockPairs_mirrors indent _ _ (rest.drop value.used) (hrest.drop _) hmore').bind
          (fun e he => List.mem_append_right _ he) fun more _ hused hmore => ?_
        refine mirrors_ok (congrArg (1 + value.used + ·) hused) ?_
        simp only [List.forall_mem_append]
        exact ⟨⟨⟨hkeyErrors, hvalueErrors⟩, duplicateErrors_fit hkeyFits⟩, hmore⟩
termination_by lines => 2 * weight lines
decreasing_by
  all_goals omega

theorem blockItems_mirrors {i : ℕ} (indent : ℕ) :
    (lines : List Line) → LinesFrom s i lines → {t' : Taken (List (ℕ × Tree))} →
      blockItems (shadow s) indent (lines.map Line.shade) = .ok t' →
      Mirrors s (blockItems s indent lines) t'
  | [], _, _, ht' => by
    rw [List.map_nil, blockItems] at ht'
    obtain rfl := Except.ok.inj ht'
    rw [blockItems]
    exact mirrors_ok rfl forall_errors_nil
  | l :: rest, h, t', ht' => by
    obtain ⟨-, hl, hrest⟩ := h
    have hweight := weight_cons l rest
    rw [List.map_cons, blockItems] at ht'
    rw [blockItems]
    simp only [l.isBlank_shade, l.indent_shade, l.isItem_shade, l.content_shade,
      l.contentStart_shade, l.advance_shade, ← List.map_drop, blanks_shade, isUsedUp_shade,
      lineError_shade] at ht'
    by_cases hblank : l.isBlank = true
    · rw [if_pos hblank] at ht' ⊢
      obtain ⟨more', hmore', ht'⟩ := exists_of_bind_eq_ok ht'
      obtain rfl := Except.ok.inj ht'
      exact (blockItems_mirrors indent rest hrest hmore').bind (fun e he => he)
        fun more _ hused hfit => mirrors_ok (congrArg (· + 1) hused) hfit
    rw [if_neg hblank] at ht' ⊢
    by_cases hout : l.indent < indent
    · rw [if_pos hout] at ht' ⊢
      obtain rfl := Except.ok.inj ht'
      exact mirrors_ok rfl forall_errors_nil
    rw [if_neg hout] at ht' ⊢
    by_cases hdeeper : indent < l.indent
    · rw [if_pos hdeeper] at ht' ⊢
      obtain ⟨more', hmore', ht'⟩ := exists_of_bind_eq_ok ht'
      obtain rfl := Except.ok.inj ht'
      exact (blockItems_mirrors indent rest hrest hmore').bind
        (fun e he => List.mem_cons_of_mem _ he) fun more _ hused hfit =>
          mirrors_ok (congrArg (· + 1) hused) (lineError_fits hl hfit)
    rw [if_neg hdeeper] at ht' ⊢
    by_cases hitem : l.isItem = true
    · rw [if_pos hitem] at ht' ⊢
      have hpos := l.length_content_pos hblank
      have hseam {k : ℕ} := isSeam_of_le_itemColumn (k := k) hitem
      have hadvance : weight (l.advance (1 + blanks (l.content.drop 1)) :: rest) <
          weight (l :: rest) := by
        simp only [weight_cons, Line.advance, List.length_drop]
        omega
      obtain ⟨item', hitem', ht'⟩ := exists_of_bind_eq_ok ht'
      obtain ⟨more', hmore', ht'⟩ := exists_of_bind_eq_ok ht'
      obtain rfl := Except.ok.inj ht'
      have hitem : Mirrors s
          (if isUsedUp (l.content.drop (1 + blanks (l.content.drop 1))) = true then
            blockNested s indent false (l.contentStart + 1) rest
          else block s (l.advance (1 + blanks (l.content.drop 1))) rest) item' := by
        split_ifs at hitem' ⊢
        · exact blockNested_mirrors indent false _ rest hrest hitem'
        · exact block_mirrors _ rest (hl.advance fun j hj => hseam hj) hrest hitem'
      refine hitem.bind (fun e he => List.mem_append_left _ he) fun item _ hused hfit => ?_
      have hdrop := weight_drop_le rest item.used
      rw [hused] at hmore' ⊢
      refine (blockItems_mirrors indent (rest.drop item.used) (hrest.drop _) hmore').bind
        (fun e he => List.mem_append_right _ he) fun more _ hused hmore => ?_
      exact mirrors_ok (congrArg (1 + item.used + ·) hused)
        (List.forall_mem_append.2 ⟨hfit, hmore⟩)
    · rw [if_neg hitem] at ht' ⊢
      obtain rfl := Except.ok.inj ht'
      exact mirrors_ok rfl forall_errors_nil
termination_by lines => 2 * weight lines
decreasing_by
  all_goals omega

theorem blockNested_mirrors {i : ℕ} (parentIndent : ℕ) (underKey : Bool) (anchor : ℕ)
    (rest : List Line) (h : LinesFrom s i rest) {t' : Taken Tree}
    (ht' : blockNested (shadow s) parentIndent underKey anchor (rest.map Line.shade) = .ok t') :
    Mirrors s (blockNested s parentIndent underKey anchor rest) t' := by
  have hnested := nestedLine_shade parentIndent underKey rest
  rcases hline : nestedLine? parentIndent underKey rest with _ | ⟨before, l⟩
  · rw [hline, Option.map_none] at hnested
    rw [blockNested_of_eq_none hnested] at ht'
    obtain rfl := Except.ok.inj ht'
    rw [blockNested_of_eq_none hline]
    exact mirrors_ok rfl forall_errors_nil
  · have hweight := weight_nestedLine hline
    obtain ⟨hl, hafter⟩ := h.nested (getElem?_of_nestedLine hline)
    rw [hline, Option.map_some] at hnested
    rw [blockNested_of_eq_some hnested, ← List.map_drop] at ht'
    obtain ⟨tree', htree', ht'⟩ := exists_of_bind_eq_ok ht'
    obtain rfl := Except.ok.inj ht'
    rw [blockNested_of_eq_some hline]
    exact (block_mirrors l (rest.drop (before + 1)) hl hafter htree').bind (fun e he => he)
      fun tree _ hused hfit => mirrors_ok (congrArg (before + 1 + ·) hused) hfit
termination_by 2 * weight rest + 2

end

/-! ## Documents -/

theorem strayErrors_shade (lines : List Line) :
    strayErrors (lines.map Line.shade) = strayErrors lines := by
  unfold strayErrors
  rw [List.filter_map, List.map_map]
  refine congrArg₂ List.map (funext fun l => lineError_shade _ l) (congrArg (lines.filter ·) ?_)
  exact funext fun l => congrArg not l.isBlank_shade

theorem ofText_mirrors {d' : Document} (hd' : Document.ofText (shadow s) = .ok d') :
    match Document.ofText s with
    | .ok _ => ∀ e ∈ d'.errors, e.span.Fits s
    | .error _ => ∃ e ∈ d'.errors, ¬ e.span.Fits s := by
  have hlines : (linesOf (shadow s)).dropWhile Line.isBlank =
      ((linesOf s).dropWhile Line.isBlank).map Line.shade := by
    rw [linesOf_shadow, List.dropWhile_map, show Line.isBlank ∘ Line.shade = Line.isBlank from
      funext Line.isBlank_shade]
  obtain ⟨k, hk⟩ : ∃ k, (linesOf s).dropWhile Line.isBlank = (linesOf s).drop k :=
    ⟨_, List.suffix_iff_eq_drop.1 (List.dropWhile_suffix _)⟩
  have hfrom := (linesFrom_linesOf s).drop k
  unfold Document.ofText at hd' ⊢
  rw [hlines, hk, tabErrors_shadow] at hd'
  rw [hk]
  generalize (linesOf s).drop k = lines at hfrom hd' ⊢
  rcases lines with _ | ⟨l, rest⟩
  · obtain rfl := Except.ok.inj hd'
    exact tabErrors_fit s
  · obtain ⟨-, hl, hrest⟩ := hfrom
    obtain ⟨tree', htree', hd'⟩ := exists_of_bind_eq_ok hd'
    obtain rfl := Except.ok.inj hd'
    have htree := block_mirrors l rest hl hrest htree'
    dsimp only
    generalize block s l rest = r at htree ⊢
    rcases r with e | tree
    · obtain ⟨e, he, hcut⟩ := htree
      exact ⟨e, List.mem_append_left _ (List.mem_append_right _ he), hcut⟩
    · show ∀ e ∈ _ ++ _ ++ _, Span.Fits s (Error.span e)
      rw [← List.map_drop, strayErrors_shade]
      simp only [List.forall_mem_append]
      exact ⟨⟨tabErrors_fit s, htree.2⟩, strayErrors_fit (hrest.drop _)⟩

/-- **Documents.** A text has a document if and only if no error of its shadow, which always has
one, cuts a character of the text. Every span of a document fits. -/
theorem exists_document_iff (s : String) :
    ∃ d', Document.ofText (shadow s) = .ok d' ∧
      ((∃ d, Document.ofText s = .ok d) ↔ ∀ e ∈ d'.errors, e.span.Fits s) ∧
      ∀ d, Document.ofText s = .ok d → ∀ r ∈ d.spans, r.Fits s := by
  obtain ⟨d', hd', -⟩ := (ofText_reads (shadow s)).of_ascii (isAscii_shadow s)
  have hmirrors := ofText_mirrors hd'
  have hreads := ofText_reads s
  refine ⟨d', hd', ?_, fun d hd => ?_⟩
  · rcases hs : Document.ofText s with e | d
    · rw [hs] at hmirrors
      obtain ⟨e, he, hcut⟩ := hmirrors
      exact iff_of_false (fun ⟨d, hd⟩ => nomatch hd) fun h => hcut (h e he)
    · rw [hs] at hmirrors
      exact iff_of_true ⟨d, rfl⟩ hmirrors
  · rw [hd] at hreads
    exact hreads

/-- Behind the entry `"a"` the reader steps into the two-byte character, where no token begins. -/
theorem not_exists_document_quotedEntry : ¬ ∃ d, Document.ofText "k: [\"a\"é]" = .ok d := by
  rintro ⟨d, hd⟩
  have hfail : (Document.ofText "k: [\"a\"é]").isOk = false := by decide +kernel
  rw [hd] at hfail
  cases hfail

end Polyglot.Data
