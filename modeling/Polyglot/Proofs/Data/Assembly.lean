import Polyglot.Proofs.Data.Block

/-!
# How data are put together

What is read is put together from scalars, pairs and items, whatever the places and the recovery from errors
were (`Tree.Assembled`). Each scalar is cut out of the text or stands for a missing one, and each pair adds
the error of its key, if an earlier key equals it; all other errors are plain. So a property of trees and
their errors that does not depend on places follows by induction on how they were put together, without
another look at the readers.
-/

namespace Polyglot.Data

variable {s : String} {start : ℕ} {cs : List Char} {lines rest : List Line} {c : Cursor}

/-! ## Steps -/

/-- The scalar is cut out of the text, or stands for one that is not there. -/
def Scalar.IsToken (s : String) (x : Scalar) : Prop :=
  x = .missing x.span.start ∨ x.span.slice? s = some x.source

/-- No error among them is about a repeated key. -/
def ArePlain (errors : List Error) : Prop := ∀ e ∈ errors, e.fault ≠ .duplicateKey

mutual

/-- The tree and its errors are put together from what stands in the text. -/
inductive Tree.Assembled (s : String) : Tree → List Error → Prop
  | scalar {x : Scalar} {errors : List Error} : x.IsToken s → ArePlain errors →
      Tree.Assembled s (.scalar x) errors
  | mapping {flow : Bool} {r : Span} {pairs : List (Scalar × Tree)} {errors : List Error} :
      PairsAssembled s [] pairs errors → Tree.Assembled s (.mapping flow r pairs) errors
  | sequence {flow : Bool} {r : Span} {items : List Tree} {errors : List Error} :
      ItemsAssembled s items errors → Tree.Assembled s (.sequence flow r items) errors
  | trailing {t : Tree} {errors after : List Error} : Tree.Assembled s t errors → ArePlain after →
      Tree.Assembled s t (errors ++ after)

/-- The pairs, read behind keys `seen`, and their errors. -/
inductive PairsAssembled (s : String) :
    List String → List (Scalar × Tree) → List Error → Prop
  | nil {seen : List String} {errors : List Error} : ArePlain errors →
      PairsAssembled s seen [] errors
  | error {seen : List String} {pairs : List (Scalar × Tree)} {fault : Fault} {r : Span}
      {errors : List Error} : fault ≠ .duplicateKey → PairsAssembled s seen pairs errors →
      PairsAssembled s seen pairs (⟨fault, r⟩ :: errors)
  | cons {seen : List String} {key : Scalar} {value : Tree} {pairs : List (Scalar × Tree)}
      {keyErrors valueErrors after errors : List Error} : key.IsToken s → ArePlain keyErrors →
      Tree.Assembled s value valueErrors → ArePlain after →
      PairsAssembled s (key.key :: seen) pairs errors →
      PairsAssembled s seen ((key, value) :: pairs)
        (keyErrors ++ valueErrors ++ duplicateErrors seen key ++ after ++ errors)

/-- The items and their errors. -/
inductive ItemsAssembled (s : String) : List Tree → List Error → Prop
  | nil {errors : List Error} : ArePlain errors → ItemsAssembled s [] errors
  | error {items : List Tree} {fault : Fault} {r : Span} {errors : List Error} :
      fault ≠ .duplicateKey → ItemsAssembled s items errors →
      ItemsAssembled s items (⟨fault, r⟩ :: errors)
  | cons {item : Tree} {items : List Tree} {itemErrors after errors : List Error} :
      Tree.Assembled s item itemErrors → ArePlain after → ItemsAssembled s items errors →
      ItemsAssembled s (item :: items) (itemErrors ++ after ++ errors)

end

theorem arePlain_nil : ArePlain [] := fun _ he => absurd he List.not_mem_nil

theorem arePlain_singleton {fault : Fault} {r : Span} (h : fault ≠ .duplicateKey) :
    ArePlain [⟨fault, r⟩] := fun e he => by
  obtain rfl := List.mem_singleton.1 he
  exact h

theorem ArePlain.append {errors after : List Error} (h : ArePlain errors) (hafter : ArePlain after) :
    ArePlain (errors ++ after) := List.forall_mem_append.2 ⟨h, hafter⟩

theorem arePlain_trailingErrors (start : ℕ) (cs : List Char) : ArePlain (trailingErrors start cs) := by
  unfold trailingErrors
  dsimp only
  split_ifs
  · exact arePlain_nil
  · exact arePlain_singleton (by decide)

theorem arePlain_finishEntry (c : Cursor) (closer : Char) : ArePlain (finishEntry c closer).errors := by
  rw [finishEntry_eq]
  rcases c.rest.drop c.gap with _ | ⟨d, t⟩
  · exact arePlain_nil
  · dsimp only
    split_ifs
    · exact arePlain_nil
    · exact arePlain_nil
    · exact arePlain_singleton (by decide)

/-! ## Scalars -/

theorem slice?_of_tokenText {r : Span} {text : String} (h : tokenText s r = .ok text) :
    r.slice? s = some text := by
  unfold tokenText at h
  split at h
  · next hslice => rw [hslice, Except.ok.inj h]
  · cases h

/-- A scalar that is read with its errors. -/
structure Taken.IsToken (s : String) (t : Taken Scalar) : Prop where
  value : t.value.IsToken s
  errors : ArePlain t.errors

theorem Taken.IsToken.assembled {t : Taken Scalar} (h : t.IsToken s) :
    Tree.Assembled s (.scalar t.value) t.errors := .scalar h.value h.errors

theorem assembled_missing (i : ℕ) : Tree.Assembled s (.scalar (.missing i)) [] :=
  .scalar (.inl rfl) arePlain_nil

theorem plainScalar_isToken {r : Span} {x : Scalar} (h : plainScalar s r = .ok x) : x.IsToken s := by
  unfold plainScalar at h
  obtain ⟨source, hsource, h⟩ := exists_of_bind_eq_ok h
  obtain rfl := Except.ok.inj h
  exact .inr (slice?_of_tokenText hsource)

theorem quotedScalar_isToken {t : Taken Scalar} (h : quotedScalar s start cs = .ok t) :
    t.IsToken s := by
  unfold quotedScalar at h
  dsimp only at h
  rcases hn : beforeClosingQuote? (cs.headD '"') cs.tail with _ | n
  all_goals
    rw [hn] at h
    obtain ⟨text, -, h⟩ := exists_of_bind_eq_ok h
    obtain ⟨source, hsource, h⟩ := exists_of_bind_eq_ok h
    obtain rfl := Except.ok.inj h
  · refine ⟨.inr ?_, arePlain_singleton (by decide)⟩
    dsimp only
    split_ifs <;> exact slice?_of_tokenText hsource
  · refine ⟨.inr ?_, arePlain_nil⟩
    dsimp only
    split_ifs <;> exact slice?_of_tokenText hsource

theorem blockKey_isToken {t : Taken Scalar} (h : blockKey s start cs = .ok t) : t.IsToken s := by
  unfold blockKey at h
  split_ifs at h
  · exact quotedScalar_isToken h
  · obtain ⟨x, hx, h⟩ := exists_of_bind_eq_ok h
    obtain rfl := Except.ok.inj h
    exact ⟨plainScalar_isToken hx, arePlain_nil⟩

theorem flowKey_isToken {t : Taken Scalar} (h : flowKey s c = .ok t) : t.IsToken s := by
  unfold flowKey at h
  split_ifs at h
  · exact quotedScalar_isToken h
  · unfold flowPlain at h
    obtain ⟨x, hx, h⟩ := exists_of_bind_eq_ok h
    obtain rfl := Except.ok.inj h
    exact ⟨plainScalar_isToken hx, arePlain_nil⟩

theorem blockPlain_isToken {parentIndent : ℕ} {t : Taken Scalar}
    (h : blockPlain s start cs parentIndent rest = .ok t) : t.IsToken s := by
  unfold blockPlain at h
  obtain ⟨more, -, h⟩ := exists_of_bind_eq_ok h
  rcases more with _ | ⟨tail, stop, used⟩
  · obtain ⟨x, hx, h⟩ := exists_of_bind_eq_ok h
    obtain rfl := Except.ok.inj h
    exact ⟨plainScalar_isToken hx, arePlain_nil⟩
  · obtain ⟨head, -, h⟩ := exists_of_bind_eq_ok h
    obtain ⟨source, hsource, h⟩ := exists_of_bind_eq_ok h
    obtain rfl := Except.ok.inj h
    exact ⟨.inr (slice?_of_tokenText hsource), arePlain_nil⟩

theorem blockScalar_isToken {parentIndent : ℕ} {t : Taken Scalar}
    (h : blockScalar s start cs parentIndent rest = .ok t) : t.IsToken s := by
  unfold blockScalar at h
  obtain ⟨header, -, h⟩ := exists_of_bind_eq_ok h
  obtain ⟨block, -, h⟩ := exists_of_bind_eq_ok h
  obtain ⟨source, hsource, h⟩ := exists_of_bind_eq_ok h
  obtain rfl := Except.ok.inj h
  exact ⟨.inr (slice?_of_tokenText hsource), arePlain_nil⟩

/-! ## Flow collections -/

theorem flowValue_assembled {t : Taken Tree} (h : flowValue s c = .ok t)
    (htree : ∀ {u : Taken Tree}, c.skip.rest.head? = some ':' →
      flowTree s (c.skip.advance 1) = .ok u → u.value.Assembled s u.errors) :
    t.value.Assembled s t.errors := by
  unfold flowValue at h
  split_ifs at h with hcolon
  · obtain ⟨u, hu, rfl⟩ := exists_of_map_eq_ok h
    have hassembled := htree hcolon hu
    exact hassembled
  · obtain rfl := Except.ok.inj h
    exact assembled_missing _

mutual

/-- **Flow collections.** -/
theorem flowTree_assembled (c : Cursor) {t : Taken Tree} (h : flowTree s c = .ok t) :
    t.value.Assembled s t.errors := by
  rw [flowTree_eq] at h
  split_ifs at h with hnil hseq hmap
  · obtain rfl := Except.ok.inj h
    exact assembled_missing _
  · have hlen := Cursor.length_skip_pos hnil
    obtain ⟨items, hitems, h⟩ := exists_of_bind_eq_ok h
    obtain rfl := Except.ok.inj h
    exact .sequence (flowItems_assembled _ (c.skip.advance 1) hitems)
  · have hlen := Cursor.length_skip_pos hnil
    obtain ⟨pairs, hpairs, h⟩ := exists_of_bind_eq_ok h
    obtain rfl := Except.ok.inj h
    exact .mapping (flowPairs_assembled _ [] (c.skip.advance 1) hpairs)
  · obtain ⟨x, hx, h⟩ := exists_of_bind_eq_ok h
    obtain rfl := Except.ok.inj h
    exact (flowKey_isToken hx).assembled
termination_by 2 * c.rest.length + 1
decreasing_by
  all_goals
    simp only [Cursor.length_rest_advance]
    omega

theorem flowItems_assembled (opened : ℕ) (c : Cursor) {t : Taken (List Tree)}
    (h : flowItems s opened c = .ok t) : ItemsAssembled s t.value t.errors := by
  rw [flowItems_eq] at h
  split_ifs at h with hnil hclose hcomma
  · obtain rfl := Except.ok.inj h
    exact .nil (arePlain_singleton (by decide))
  · obtain rfl := Except.ok.inj h
    exact .nil arePlain_nil
  · have hlen := Cursor.length_skip_pos hnil
    obtain ⟨more, hmore, h⟩ := exists_of_bind_eq_ok h
    obtain rfl := Except.ok.inj h
    have hassembled := flowItems_assembled opened (c.skip.advance 1) hmore
    exact hassembled
  · have hlen := Cursor.length_skip_pos hnil
    obtain ⟨item, hitem, h⟩ := exists_of_bind_eq_ok h
    dsimp only at h
    have hfinish := arePlain_finishEntry (c.skip.advance item.used) ']'
    generalize finishEntry (c.skip.advance item.used) ']' = finish at h hfinish
    have hpos : 1 ≤ max 1 (item.used + finish.used) := Nat.le_max_left ..
    generalize max 1 (item.used + finish.used) = step at h hpos
    obtain ⟨more, hmore, h⟩ := exists_of_bind_eq_ok h
    obtain rfl := Except.ok.inj h
    exact .cons (flowTree_assembled c.skip hitem) hfinish
      (flowItems_assembled opened (c.skip.advance step) hmore)
termination_by 2 * c.rest.length + 2
decreasing_by
  all_goals
    try simp only [Cursor.length_rest_advance]
    omega

theorem flowPairs_assembled (opened : ℕ) (seen : List String) (c : Cursor)
    {t : Taken (List (Scalar × Tree))} (h : flowPairs s opened seen c = .ok t) :
    PairsAssembled s seen t.value t.errors := by
  rw [flowPairs_eq] at h
  split_ifs at h with hnil hclose hcomma
  · obtain rfl := Except.ok.inj h
    exact .nil (arePlain_singleton (by decide))
  · obtain rfl := Except.ok.inj h
    exact .nil arePlain_nil
  · have hlen := Cursor.length_skip_pos hnil
    obtain ⟨more, hmore, h⟩ := exists_of_bind_eq_ok h
    obtain rfl := Except.ok.inj h
    have hassembled := flowPairs_assembled opened seen (c.skip.advance 1) hmore
    exact hassembled
  · have hlen := Cursor.length_skip_pos hnil
    obtain ⟨key, hkey, h⟩ := exists_of_bind_eq_ok h
    obtain ⟨value, hvalue, h⟩ := exists_of_bind_eq_ok h
    have hkey := flowKey_isToken hkey
    have hafter : (c.skip.advance key.used).rest.length = c.skip.rest.length - key.used :=
      Cursor.length_rest_advance ..
    have hvalue : value.value.Assembled s value.errors := by
      refine flowValue_assembled hvalue fun hcolon hu => ?_
      have hlen' := Cursor.length_skip_pos (Cursor.ne_nil_of_head hcolon)
      exact flowTree_assembled _ hu
    dsimp only at h
    have hfinish := arePlain_finishEntry (c.skip.advance (key.used + value.used)) '\x7d'
    generalize finishEntry (c.skip.advance (key.used + value.used)) '\x7d' = finish at h hfinish
    have hpos : 1 ≤ max 1 (key.used + value.used + finish.used) := Nat.le_max_left ..
    generalize max 1 (key.used + value.used + finish.used) = step at h hpos
    obtain ⟨more, hmore, h⟩ := exists_of_bind_eq_ok h
    obtain rfl := Except.ok.inj h
    exact .cons hkey.value hkey.errors hvalue hfinish
      (flowPairs_assembled opened _ (c.skip.advance step) hmore)
termination_by 2 * c.rest.length + 2
decreasing_by
  all_goals
    try simp only [Cursor.length_rest_advance]
    omega

end

/-! ## Blocks -/

theorem inlineValue_assembled {parentIndent : ℕ} {t : Taken Tree}
    (h : inlineValue s start cs parentIndent rest = .ok t) : t.value.Assembled s t.errors := by
  rw [inlineValue_eq] at h
  split_ifs at h
  · obtain ⟨x, hx, h⟩ := exists_of_bind_eq_ok h
    obtain rfl := Except.ok.inj h
    exact .trailing (quotedScalar_isToken hx).assembled (arePlain_trailingErrors _ _)
  · rw [blockFlow_eq] at h
    obtain ⟨tree, htree, h⟩ := exists_of_bind_eq_ok h
    obtain rfl := Except.ok.inj h
    exact .trailing (flowTree_assembled _ htree) (arePlain_trailingErrors _ _)
  · obtain ⟨x, hx, h⟩ := exists_of_bind_eq_ok h
    obtain rfl := Except.ok.inj h
    exact (blockScalar_isToken hx).assembled
  · obtain ⟨x, hx, h⟩ := exists_of_bind_eq_ok h
    obtain rfl := Except.ok.inj h
    exact (blockPlain_isToken hx).assembled

mutual

/-- **Blocks.** -/
theorem block_assembled (l : Line) (rest : List Line) {t : Taken Tree}
    (h : block s l rest = .ok t) : t.value.Assembled s t.errors := by
  rw [block] at h
  split_ifs at h
  · obtain ⟨items, hitems, h⟩ := exists_of_bind_eq_ok h
    obtain rfl := Except.ok.inj h
    exact .sequence (blockItems_assembled l.indent (l :: rest) hitems)
  · obtain ⟨pairs, hpairs, h⟩ := exists_of_bind_eq_ok h
    obtain rfl := Except.ok.inj h
    exact .mapping (blockPairs_assembled l.indent [] (l :: rest) hpairs)
  · exact inlineValue_assembled h
termination_by 2 * weight (l :: rest) + 1

theorem blockPairs_assembled (indent : ℕ) (seen : List String) : (lines : List Line) →
    ∀ {t : Taken (List (Scalar × Tree))}, blockPairs s indent seen lines = .ok t →
      PairsAssembled s seen t.value t.errors
  | [], t, h => by
    rw [blockPairs] at h
    obtain rfl := Except.ok.inj h
    exact .nil arePlain_nil
  | l :: rest, t, h => by
    have hweight := weight_cons l rest
    rw [blockPairs] at h
    split_ifs at h with hblank hout hmisplaced
    · obtain ⟨more, hmore, h⟩ := exists_of_bind_eq_ok h
      obtain rfl := Except.ok.inj h
      have hassembled := blockPairs_assembled indent seen rest hmore
      exact hassembled
    · obtain rfl := Except.ok.inj h
      exact .nil arePlain_nil
    · obtain ⟨more, hmore, h⟩ := exists_of_bind_eq_ok h
      obtain rfl := Except.ok.inj h
      exact .error (by decide) (blockPairs_assembled indent seen rest hmore)
    · split at h
      · obtain ⟨more, hmore, h⟩ := exists_of_bind_eq_ok h
        obtain rfl := Except.ok.inj h
        exact .error (by decide) (blockPairs_assembled indent seen rest hmore)
      · have hpos := l.length_content_pos hblank
        obtain ⟨key, hkey, h⟩ := exists_of_bind_eq_ok h
        obtain ⟨value, hvalue, h⟩ := exists_of_bind_eq_ok h
        obtain ⟨more, hmore, h⟩ := exists_of_bind_eq_ok h
        obtain rfl := Except.ok.inj h
        have hkey := blockKey_isToken hkey
        have hvalue : value.value.Assembled s value.errors := by
          split_ifs at hvalue
          · exact blockNested_assembled rest hvalue
          · exact inlineValue_assembled hvalue
        have hdrop := weight_drop_le rest value.used
        have hmore := blockPairs_assembled indent _ (rest.drop value.used) hmore
        have hcons := PairsAssembled.cons hkey.value hkey.errors hvalue arePlain_nil hmore
        rw [List.append_nil] at hcons
        exact hcons
termination_by lines => 2 * weight lines
decreasing_by
  all_goals omega

theorem blockItems_assembled (indent : ℕ) : (lines : List Line) →
    ∀ {t : Taken (List (ℕ × Tree))}, blockItems s indent lines = .ok t →
      ItemsAssembled s (t.value.map (·.2)) t.errors
  | [], t, h => by
    rw [blockItems] at h
    obtain rfl := Except.ok.inj h
    exact .nil arePlain_nil
  | l :: rest, t, h => by
    have hweight := weight_cons l rest
    rw [blockItems] at h
    split_ifs at h with hblank hout hdeeper hitem
    · obtain ⟨more, hmore, h⟩ := exists_of_bind_eq_ok h
      obtain rfl := Except.ok.inj h
      have hassembled := blockItems_assembled indent rest hmore
      exact hassembled
    · obtain rfl := Except.ok.inj h
      exact .nil arePlain_nil
    · obtain ⟨more, hmore, h⟩ := exists_of_bind_eq_ok h
      obtain rfl := Except.ok.inj h
      exact .error (by decide) (blockItems_assembled indent rest hmore)
    · have hpos := l.length_content_pos hblank
      have hadvance : weight (l.advance (1 + blanks (l.content.drop 1)) :: rest) <
          weight (l :: rest) := by
        simp only [weight_cons, Line.advance, List.length_drop]
        omega
      obtain ⟨item, hitem, h⟩ := exists_of_bind_eq_ok h
      obtain ⟨more, hmore, h⟩ := exists_of_bind_eq_ok h
      obtain rfl := Except.ok.inj h
      have hitem : item.value.Assembled s item.errors := by
        split_ifs at hitem
        · exact blockNested_assembled rest hitem
        · exact block_assembled _ rest hitem
      have hdrop := weight_drop_le rest item.used
      have hmore := blockItems_assembled indent (rest.drop item.used) hmore
      have hcons := ItemsAssembled.cons hitem arePlain_nil hmore
      rw [List.append_nil] at hcons
      exact hcons
    · obtain rfl := Except.ok.inj h
      exact .nil arePlain_nil
termination_by lines => 2 * weight lines
decreasing_by
  all_goals omega

theorem blockNested_assembled {parentIndent anchor : ℕ} {underKey : Bool} (rest : List Line)
    {t : Taken Tree} (h : blockNested s parentIndent underKey anchor rest = .ok t) :
    t.value.Assembled s t.errors := by
  rcases hline : nestedLine? parentIndent underKey rest with _ | ⟨before, l⟩
  · rw [blockNested_of_eq_none hline] at h
    obtain rfl := Except.ok.inj h
    exact assembled_missing _
  · rw [blockNested_of_eq_some hline] at h
    have hweight := weight_nestedLine hline
    obtain ⟨tree, htree, h⟩ := exists_of_bind_eq_ok h
    obtain rfl := Except.ok.inj h
    have hassembled := block_assembled l (rest.drop (before + 1)) htree
    exact hassembled
termination_by 2 * weight rest + 2

end

/-! ## Documents -/

theorem arePlain_tabErrors (s : String) : ArePlain (tabErrors s) := by
  intro e he
  obtain ⟨p, -, hp⟩ := List.mem_filterMap.1 he
  unfold tabError? at hp
  dsimp only at hp
  split_ifs at hp
  obtain rfl := Option.some.inj hp
  exact nofun

theorem arePlain_strayErrors (lines : List Line) : ArePlain (strayErrors lines) := by
  intro e he
  obtain ⟨l, -, rfl⟩ := List.mem_map.1 he
  exact nofun

/-- **Documents.** The root is put together with its errors; around them stand plain ones. -/
theorem Document.ofText_assembled {d : Document} (h : Document.ofText s = .ok d) :
    ∃ before errors after, d.errors = before ++ errors ++ after ∧ ArePlain before ∧
      ArePlain after ∧ (d.root = none ∧ errors = [] ∨
        ∃ root, d.root = some root ∧ root.Assembled s errors) := by
  unfold Document.ofText at h
  split at h
  · obtain rfl := Except.ok.inj h
    refine ⟨tabErrors s, [], [], by simp, arePlain_tabErrors s, arePlain_nil, .inl ⟨rfl, rfl⟩⟩
  · next l rest _ =>
    obtain ⟨tree, htree, h⟩ := exists_of_bind_eq_ok h
    obtain rfl := Except.ok.inj h
    exact ⟨_, _, _, rfl, arePlain_tabErrors s, arePlain_strayErrors _,
      .inr ⟨_, rfl, block_assembled l rest htree⟩⟩

end Polyglot.Data
