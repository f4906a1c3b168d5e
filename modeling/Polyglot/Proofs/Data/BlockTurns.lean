import Polyglot.Proofs.Data.FlowTurns

/-!
# Blocks, turn by turn

A block is read in turns: each passes over a line, or reads one entry and the lines that belong to it.
Most turns go on at a later line. One kind does not: behind a dash, an item is read on the same line,
but with its content moved to the right (`BlockReader.Moves.reread`). So every block is read to an end,
and what the turns lead to is what the readers of blocks, pairs and items answer
(`BlockReader.settles`).
-/

namespace Polyglot.Data

variable {s : String} {i j k n : ℕ} {l : Line} {rest lines : List Line}

/-! ## Lines that values take -/

theorem foldPlain_used_le {parentIndent empty used stop : ℕ} {tail : String}
    (h : foldPlain s parentIndent empty lines = .ok (some (tail, stop, used))) :
    used ≤ empty + lines.length := by
  induction lines generalizing empty tail stop used with
  | nil => cases h
  | cons l ls ih =>
    rw [List.length_cons]
    rw [foldPlain] at h
    by_cases hempty : l.isEmpty = true
    · rw [if_pos hempty] at h
      have hle := ih h
      omega
    rw [if_neg hempty] at h
    by_cases hcontinues : continuesPlain parentIndent l = true
    · rw [if_pos hcontinues] at h
      obtain ⟨text, -, h⟩ := exists_of_bind_eq_ok h
      obtain ⟨more, hmore, h⟩ := exists_of_bind_eq_ok h
      rcases more with _ | ⟨tail', stop', used'⟩
      · obtain ⟨-, -, rfl⟩ : _ ∧ _ ∧ empty + 1 = used := by
          simpa [Span.withLength, pure, Except.pure] using h
        omega
      · obtain ⟨-, -, rfl⟩ : _ ∧ _ ∧ empty + 1 + used' = used := by
          simpa [pure, Except.pure] using h
        have hle := ih hmore
        omega
    · rw [if_neg hcontinues] at h
      cases h

theorem blockText_used_le {parentIndent empty stop : ℕ} {indent : Option ℕ} {b : BlockText}
    (h : blockText s parentIndent indent empty stop lines = .ok b) : b.used ≤ lines.length := by
  induction lines generalizing indent empty stop b with
  | nil =>
    obtain rfl := Except.ok.inj h
    exact le_rfl
  | cons l ls ih =>
    rw [blockText] at h
    dsimp only at h
    split_ifs at h with hempty hout
    · obtain ⟨more, hmore, h⟩ := exists_of_bind_eq_ok h
      obtain rfl := Except.ok.inj h
      exact Nat.succ_le_succ (ih hmore)
    · obtain rfl := Except.ok.inj h
      exact Nat.zero_le _
    · obtain ⟨piece, -, h⟩ := exists_of_bind_eq_ok h
      obtain ⟨more, hmore, h⟩ := exists_of_bind_eq_ok h
      obtain rfl := Except.ok.inj h
      exact Nat.succ_le_succ (ih hmore)

theorem blockFlow_used {start parentIndent : ℕ} {cs : List Char} {t : Taken Tree}
    (h : blockFlow s start cs parentIndent rest = .ok t) :
    t.used = (rest.takeWhile fun l => l.start < flowStop s start cs parentIndent rest).length := by
  rw [blockFlow_eq] at h
  obtain ⟨tree, -, h⟩ := exists_of_bind_eq_ok h
  obtain rfl := Except.ok.inj h
  rfl

theorem inlineValue_used_le {start parentIndent : ℕ} {cs : List Char} {t : Taken Tree}
    (h : inlineValue s start cs parentIndent rest = .ok t) : t.used ≤ rest.length := by
  rw [inlineValue_eq] at h
  split_ifs at h with hquote hflow hheader
  · obtain ⟨scalar, -, h⟩ := exists_of_bind_eq_ok h
    obtain rfl := Except.ok.inj h
    exact Nat.zero_le _
  · rw [blockFlow_used h]
    exact (List.takeWhile_sublist _).length_le
  · obtain ⟨scalar, hscalar, h⟩ := exists_of_bind_eq_ok h
    obtain rfl := Except.ok.inj h
    unfold blockScalar at hscalar
    obtain ⟨header, -, hscalar⟩ := exists_of_bind_eq_ok hscalar
    obtain ⟨block, hblock, hscalar⟩ := exists_of_bind_eq_ok hscalar
    obtain ⟨source, -, hscalar⟩ := exists_of_bind_eq_ok hscalar
    obtain rfl := Except.ok.inj hscalar
    exact blockText_used_le hblock
  · obtain ⟨scalar, hscalar, h⟩ := exists_of_bind_eq_ok h
    obtain rfl := Except.ok.inj h
    unfold blockPlain at hscalar
    obtain ⟨more, hmore, hscalar⟩ := exists_of_bind_eq_ok hscalar
    rcases more with _ | ⟨tail, stop, used⟩
    · obtain ⟨x, -, hscalar⟩ := exists_of_bind_eq_ok hscalar
      obtain rfl := Except.ok.inj hscalar
      exact Nat.zero_le _
    · obtain ⟨head, -, hscalar⟩ := exists_of_bind_eq_ok hscalar
      obtain ⟨source, -, hscalar⟩ := exists_of_bind_eq_ok hscalar
      obtain rfl := Except.ok.inj hscalar
      have hle := foldPlain_used_le hmore
      rwa [Nat.zero_add] at hle

/-! ## First lines -/

theorem Line.isBlank_of_isItem (h : l.isItem = true) : l.isBlank = false := by
  obtain ⟨tail, htail⟩ := Line.eq_cons_of_isItem h
  rw [isBlank, htail]
  rfl

theorem Line.isBlank_of_findKey (h : (findKey? l.content).isSome = true) : l.isBlank = false := by
  unfold isBlank
  rcases hcontent : l.content with _ | ⟨c, cs⟩
  · rw [hcontent] at h
    cases h
  · by_cases hhash : c = '#'
    · rw [hcontent, hhash] at h
      cases h
    · simpa using hhash

/-! ## Turns -/

/-- What is read of a block. -/
inductive BlockTask where
  | block
  /-- The pairs of the mapping at column `indent`, after pairs with the keys `seen`. -/
  | pairs (indent : ℕ) (seen : List String)
  /-- The items of the sequence at column `indent`. -/
  | items (indent : ℕ)
  /-- The value on the lines after a key or a dash. -/
  | nested (parentIndent : ℕ) (underKey : Bool) (anchor : ℕ)
deriving DecidableEq, Repr

/-- The task goes through the lines of a collection. -/
def BlockTask.IsLoop : BlockTask → Prop
  | .pairs _ _ | .items _ => True
  | .block | .nested _ _ _ => False

theorem BlockTask.IsLoop.ne_block {task : BlockTask} (h : task.IsLoop) : task ≠ .block := by
  rintro rfl
  exact h

/-- A task, the number of the line where it is taken up, and the lines from this one on. The front of the
first line may have been read before; then its content is what is left of it. -/
structure BlockReader where
  task : BlockTask
  pos : ℕ
  lines : List Line
deriving DecidableEq, Repr

namespace BlockReader

/-- A turn of a reader of lines. -/
def turn (s : String) : BlockReader → Except TornCharacter (Turn BlockReader)
  | ⟨.block, i, []⟩ => .ok (.done i)
  | ⟨.block, i, l :: rest⟩ =>
    if l.isItem then .ok (.go ⟨.items l.indent, i, l :: rest⟩)
    else if (findKey? l.content).isSome then .ok (.go ⟨.pairs l.indent [], i, l :: rest⟩)
    else do
      let value ← inlineValue s l.contentStart l.content (l.indent - 1) rest
      return .done (i + 1 + value.used)
  | ⟨.pairs _ _, i, []⟩ => .ok (.done i)
  | ⟨.pairs indent seen, i, l :: rest⟩ =>
    if l.isBlank then .ok (.go ⟨.pairs indent seen, i + 1, rest⟩)
    else if l.indent < indent then .ok (.done i)
    else if indent < l.indent || l.isItem then .ok (.go ⟨.pairs indent seen, i + 1, rest⟩)
    else
      match findKey? l.content with
      | none => .ok (.go ⟨.pairs indent seen, i + 1, rest⟩)
      | some extent => do
        let key ← blockKey s l.contentStart (l.content.take extent.key)
        let valueAt := extent.colonEnd + blanks (l.content.drop extent.colonEnd)
        let back j : BlockReader :=
          ⟨.pairs indent (key.value.key :: seen), j, rest.drop (j - (i + 1))⟩
        if isUsedUp (l.content.drop valueAt) then
          return .call ⟨.nested indent true (l.contentStart + extent.colonEnd), i + 1, rest⟩ back
        else
          let value ← inlineValue s (l.contentStart + valueAt) (l.content.drop valueAt) indent rest
          return .go (back (i + 1 + value.used))
  | ⟨.items _, i, []⟩ => .ok (.done i)
  | ⟨.items indent, i, l :: rest⟩ =>
    if l.isBlank then .ok (.go ⟨.items indent, i + 1, rest⟩)
    else if l.indent < indent then .ok (.done i)
    else if indent < l.indent then .ok (.go ⟨.items indent, i + 1, rest⟩)
    else if l.isItem then
      let column := 1 + blanks (l.content.drop 1)
      let back j : BlockReader := ⟨.items indent, j, rest.drop (j - (i + 1))⟩
      if isUsedUp (l.content.drop column) then
        .ok (.call ⟨.nested indent false (l.contentStart + 1), i + 1, rest⟩ back)
      else .ok (.call ⟨.block, i, l.advance column :: rest⟩ back)
    else .ok (.done i)
  | ⟨.nested parentIndent underKey _, i, lines⟩ =>
    match nestedLine? parentIndent underKey lines with
    | none => .ok (.done i)
    | some (before, l) => .ok (.go ⟨.block, i + before, l :: lines.drop (before + 1)⟩)

/-- The number of the line where the task is done. -/
def answer (s : String) : BlockReader → Except TornCharacter ℕ
  | ⟨.block, i, []⟩ => .ok i
  | ⟨.block, i, l :: rest⟩ => (block s l rest).map (i + 1 + ·.used)
  | ⟨.pairs indent seen, i, lines⟩ => (blockPairs s indent seen lines).map (i + ·.used)
  | ⟨.items indent, i, lines⟩ => (blockItems s indent lines).map (i + ·.used)
  | ⟨.nested parentIndent underKey anchor, i, lines⟩ =>
    (blockNested s parentIndent underKey anchor lines).map (i + ·.used)

/-- What a turn can lead to. -/
inductive Moves : BlockReader → Turn BlockReader → Prop
  /-- No line is taken. -/
  | stop {task : BlockTask} {i : ℕ} {lines : List Line} (h : task ≠ .block ∨ lines = []) :
      Moves ⟨task, i, lines⟩ (.done i)
  /-- A value begins on the line and takes `k` more. -/
  | value {i k : ℕ} {l : Line} {rest : List Line} (hk : k ≤ rest.length) :
      Moves ⟨.block, i, l :: rest⟩ (.done (i + 1 + k))
  /-- The lines of a collection begin. -/
  | enter {task : BlockTask} {i : ℕ} {lines : List Line} (h : task.IsLoop) :
      Moves ⟨.block, i, lines⟩ (.go ⟨task, i, lines⟩)
  /-- The line is behind, with `k` more that its value takes. -/
  | pass {task next : BlockTask} {i k : ℕ} {l : Line} {rest : List Line} (h : task.IsLoop)
      (hnext : next.IsLoop) (hk : k ≤ rest.length) :
      Moves ⟨task, i, l :: rest⟩ (.go ⟨next, i + 1 + k, rest.drop k⟩)
  /-- A value begins behind `k` blank lines. -/
  | descend {parentIndent anchor i k : ℕ} {underKey : Bool} {l : Line} {rest lines : List Line}
      (hlines : lines.drop k = l :: rest) (hl : l.isBlank = false) :
      Moves ⟨.nested parentIndent underKey anchor, i, lines⟩ (.go ⟨.block, i + k, l :: rest⟩)
  /-- The value of an entry is looked for on the lines after it. -/
  | below {task next : BlockTask} {parentIndent anchor i : ℕ} {underKey : Bool} {l : Line}
      {rest : List Line} (h : task.IsLoop) (hnext : next.IsLoop) (hl : l.isBlank = false) :
      Moves ⟨task, i, l :: rest⟩ (.call ⟨.nested parentIndent underKey anchor, i + 1, rest⟩
        fun j => ⟨next, j, rest.drop (j - (i + 1))⟩)
  /-- The value of an item is read on its line, `k` octets further to the right. -/
  | reread {indent i k : ℕ} {l : Line} {rest : List Line} (hk : 0 < k) (hlt : k < l.content.length)
      (hl : (l.advance k).isBlank = false) :
      Moves ⟨.items indent, i, l :: rest⟩ (.call ⟨.block, i, l.advance k :: rest⟩
        fun j => ⟨.items indent, j, rest.drop (j - (i + 1))⟩)

theorem turn_moves {r : BlockReader} {t : Turn BlockReader} (h : r.turn s = .ok t) : Moves r t := by
  unfold turn at h
  split at h
  case h_1 i =>
    obtain rfl := Except.ok.inj h
    exact .stop (.inr rfl)
  case h_2 i l rest =>
    split_ifs at h with hitem hkey
    · obtain rfl := Except.ok.inj h
      exact .enter trivial
    · obtain rfl := Except.ok.inj h
      exact .enter trivial
    · obtain ⟨value, hvalue, h⟩ := exists_of_bind_eq_ok h
      obtain rfl := Except.ok.inj h
      exact .value (inlineValue_used_le hvalue)
  case h_3 =>
    obtain rfl := Except.ok.inj h
    exact .stop (.inl (BlockTask.IsLoop.ne_block trivial))
  case h_4 indent seen i l rest =>
    have hpass : Moves ⟨.pairs indent seen, i, l :: rest⟩ (.go ⟨.pairs indent seen, i + 1, rest⟩) :=
      .pass (k := 0) trivial trivial (Nat.zero_le _)
    split_ifs at h with hblank hout hmisplaced
    · obtain rfl := Except.ok.inj h
      exact hpass
    · obtain rfl := Except.ok.inj h
      exact .stop (.inl (BlockTask.IsLoop.ne_block trivial))
    · obtain rfl := Except.ok.inj h
      exact hpass
    · split at h
      · obtain rfl := Except.ok.inj h
        exact hpass
      · obtain ⟨key, -, h⟩ := exists_of_bind_eq_ok h
        dsimp only at h
        split_ifs at h with hused
        · obtain rfl := Except.ok.inj h
          exact .below trivial trivial (Bool.eq_false_iff.2 hblank)
        · obtain ⟨value, hvalue, h⟩ := exists_of_bind_eq_ok h
          obtain rfl := Except.ok.inj h
          rw [Nat.add_sub_cancel_left]
          exact .pass trivial trivial (inlineValue_used_le hvalue)
  case h_5 =>
    obtain rfl := Except.ok.inj h
    exact .stop (.inl (BlockTask.IsLoop.ne_block trivial))
  case h_6 indent i l rest =>
    have hpass : Moves ⟨.items indent, i, l :: rest⟩ (.go ⟨.items indent, i + 1, rest⟩) :=
      .pass (k := 0) trivial trivial (Nat.zero_le _)
    split_ifs at h with hblank hout hdeeper hitem
    · obtain rfl := Except.ok.inj h
      exact hpass
    · obtain rfl := Except.ok.inj h
      exact .stop (.inl (BlockTask.IsLoop.ne_block trivial))
    · obtain rfl := Except.ok.inj h
      exact hpass
    · dsimp only at h
      split_ifs at h with hused
      · obtain rfl := Except.ok.inj h
        exact .below trivial trivial (Bool.eq_false_iff.2 hblank)
      · obtain rfl := Except.ok.inj h
        have hleft : l.content.drop (1 + blanks (l.content.drop 1)) ≠ [] :=
          fun hnil => hused (by rw [hnil]; rfl)
        exact .reread (by omega) (by simpa using hleft) (Bool.eq_false_iff.2 hused)
    · obtain rfl := Except.ok.inj h
      exact .stop (.inl (BlockTask.IsLoop.ne_block trivial))
  case h_7 parentIndent underKey anchor i lines =>
    split at h
    · obtain rfl := Except.ok.inj h
      exact .stop (.inl (by rintro ⟨⟩))
    · next before l hnested =>
      obtain rfl := Except.ok.inj h
      obtain ⟨hlt, hl⟩ := List.getElem?_eq_some_iff.1 (getElem?_of_nestedLine hnested)
      exact .descend (hl ▸ List.drop_eq_getElem_cons hlt) (nestedLine?_split hnested).2

/-! ## Answers -/

theorem answer_block (s : String) (i : ℕ) (l : Line) (rest : List Line) :
    answer s ⟨.block, i, l :: rest⟩ =
      turn s ⟨.block, i, l :: rest⟩ >>= Turn.answer (answer s) := by
  unfold turn
  simp only [answer]
  rw [block]
  split_ifs with hitem hkey
  · show _ = answer s ⟨.items l.indent, i, l :: rest⟩
    simp only [answer]
    rcases hitems : blockItems s l.indent (l :: rest) with e | items
    · rfl
    · have hpos := used_blockItems_pos (Line.isBlank_of_isItem hitem) hitem hitems
      exact congrArg Except.ok (by dsimp only; omega)
  · show _ = answer s ⟨.pairs l.indent [], i, l :: rest⟩
    simp only [answer]
    rcases hpairs : blockPairs s l.indent [] (l :: rest) with e | pairs
    · rfl
    · have hpos := used_blockPairs_pos (Line.isBlank_of_findKey hkey) (Bool.eq_false_iff.2 hitem)
        hkey hpairs
      exact congrArg Except.ok (by dsimp only; omega)
  · rcases inlineValue s l.contentStart l.content (l.indent - 1) rest with e | value
    · rfl
    · rfl

/-- An entry whose value takes `t.used` lines behind its own is followed by what `g` answers there. -/
theorem map_used_entry_bind {α β : Type} (x : Except TornCharacter (Taken α))
    {f : Taken α → Except TornCharacter (Taken β)} {g : ℕ → Except TornCharacter ℕ}
    (hg : ∀ t, (f t).map (i + ·.used) = g (i + 1 + t.used)) :
    (x >>= f).map (i + ·.used) = x.map (i + 1 + ·.used) >>= g := by
  rcases x with e | t
  · rfl
  · exact hg t

theorem answer_items (s : String) (indent i : ℕ) (l : Line) (rest : List Line) :
    answer s ⟨.items indent, i, l :: rest⟩ =
      turn s ⟨.items indent, i, l :: rest⟩ >>= Turn.answer (answer s) := by
  unfold turn
  simp only [answer]
  rw [blockItems]
  by_cases hblank : l.isBlank = true
  · simp only [if_pos hblank]
    exact map_used_bind _ fun t => by dsimp only; omega
  by_cases hout : l.indent < indent
  · simp only [if_neg hblank, if_pos hout]
    rfl
  by_cases hdeeper : indent < l.indent
  · simp only [if_neg hblank, if_neg hout, if_pos hdeeper]
    exact map_used_bind _ fun t => by dsimp only; omega
  by_cases hitem : l.isItem = true
  · simp only [if_neg hblank, if_neg hout, if_neg hdeeper, if_pos hitem]
    have hmore : ∀ item : Taken Tree,
        ((blockItems s indent (rest.drop item.used) >>= fun more =>
          pure (⟨(l.contentStart, item.value) :: more.value, 1 + item.used + more.used,
            item.errors ++ more.errors⟩ : Taken (List (ℕ × Tree)))).map (i + ·.used)) =
          answer s ⟨.items indent, i + 1 + item.used, rest.drop (i + 1 + item.used - (i + 1))⟩ := by
      intro item
      rw [Nat.add_sub_cancel_left]
      exact map_used_bind _ fun t => by dsimp only; omega
    split_ifs with hused
    · exact map_used_entry_bind _ hmore
    · exact map_used_entry_bind _ hmore
  · simp only [if_neg hblank, if_neg hout, if_neg hdeeper, if_neg hitem]
    rfl

theorem answer_pairs (s : String) (indent : ℕ) (seen : List String) (i : ℕ) (l : Line)
    (rest : List Line) :
    answer s ⟨.pairs indent seen, i, l :: rest⟩ =
      turn s ⟨.pairs indent seen, i, l :: rest⟩ >>= Turn.answer (answer s) := by
  unfold turn
  simp only [answer]
  rw [blockPairs]
  split_ifs with hblank hout hmisplaced
  · exact map_used_bind _ fun t => by dsimp only; omega
  · rfl
  · exact map_used_bind _ fun t => by dsimp only; omega
  · rcases findKey? l.content with _ | extent
    · exact map_used_bind _ fun t => by dsimp only; omega
    · dsimp only
      rcases blockKey s l.contentStart (l.content.take extent.key) with e | key
      · rfl
      let back j : BlockReader :=
        ⟨.pairs indent (key.value.key :: seen), j, rest.drop (j - (i + 1))⟩
      have hmore : ∀ value : Taken Tree,
          ((blockPairs s indent (key.value.key :: seen) (rest.drop value.used) >>= fun more =>
            pure (⟨(key.value, value.value) :: more.value, 1 + value.used + more.used,
              key.errors ++ value.errors ++ duplicateErrors seen key.value ++ more.errors⟩ :
                Taken (List (Scalar × Tree)))).map (i + ·.used)) =
            answer s (back (i + 1 + value.used)) := by
        intro value
        dsimp only [back, answer]
        rw [Nat.add_sub_cancel_left]
        exact map_used_bind _ fun t => by dsimp only; omega
      split_ifs with hused
      · exact map_used_entry_bind (g := answer s ∘ back) (blockNested s indent true _ rest) hmore
      · refine (map_used_entry_bind (g := answer s ∘ back) (inlineValue s _ _ indent rest)
          hmore).trans ?_
        rcases inlineValue s _ _ indent rest with e | value
        · rfl
        · rfl

theorem answer_nested (s : String) (parentIndent : ℕ) (underKey : Bool) (anchor i : ℕ)
    (lines : List Line) :
    answer s ⟨.nested parentIndent underKey anchor, i, lines⟩ =
      turn s ⟨.nested parentIndent underKey anchor, i, lines⟩ >>= Turn.answer (answer s) := by
  unfold turn
  simp only [answer]
  rcases hnested : nestedLine? parentIndent underKey lines with _ | ⟨before, l⟩
  · rw [blockNested_of_eq_none hnested]
    rfl
  · rw [blockNested_of_eq_some hnested]
    exact map_used_bind _ fun t => by dsimp only; omega

/-- Two steps for each octet and each line that is left, and two in between for the value of an entry. -/
def measure (r : BlockReader) : ℕ :=
  2 * weight r.lines +
    match r.task with
    | .block => 1
    | .nested _ _ _ => 2
    | .pairs _ _ | .items _ => 0

theorem measure_of_isLoop {task : BlockTask} (h : task.IsLoop) (i : ℕ) (lines : List Line) :
    measure ⟨task, i, lines⟩ = 2 * weight lines := by
  cases task with
  | pairs | items => rfl
  | block | nested => exact h.elim

/-- **Answers.** The turns in a block lead to what its readers answer. -/
theorem settles (s : String) : Turn.Settles (turn s) (answer s) measure where
  eq_answer r := by
    obtain ⟨task, i, lines⟩ := r
    cases task with
    | nested parentIndent underKey anchor =>
      exact answer_nested s parentIndent underKey anchor i lines
    | block =>
      rcases lines with _ | ⟨l, rest⟩
      · rfl
      · exact answer_block s i l rest
    | items indent =>
      rcases lines with _ | ⟨l, rest⟩
      · simp only [answer]
        rw [blockItems]
        rfl
      · exact answer_items s indent i l rest
    | pairs indent seen =>
      rcases lines with _ | ⟨l, rest⟩
      · simp only [answer]
        rw [blockPairs]
        rfl
      · exact answer_pairs s indent seen i l rest
  go_lt h := by
    cases turn_moves h with
    | enter hloop =>
      rw [measure_of_isLoop hloop]
      exact Nat.lt_succ_self _
    | @pass _ _ _ k _ rest hloop hnext hk =>
      have hdrop := weight_drop_le rest k
      rw [measure_of_isLoop hloop, measure_of_isLoop hnext, weight_cons]
      omega
    | @descend _ _ _ k _ _ _ lines hlines hl =>
      have hdrop := weight_drop_le lines k
      rw [hlines] at hdrop
      unfold measure
      dsimp only
      omega
  call_lt h := by
    cases turn_moves h with
    | @below _ _ _ _ _ _ l rest hloop hnext hl =>
      have hpos := l.length_content_pos (by simp [hl])
      rw [measure_of_isLoop hloop, weight_cons]
      unfold measure
      dsimp only
      omega
    | @reread _ _ k l rest hk hlt hl =>
      unfold measure
      simp only [weight_cons, Line.advance, List.length_drop]
      omega
  back_lt {_ _ _ j} h _ := by
    cases turn_moves h with
    | @below _ _ _ _ i _ l rest hloop hnext hl =>
      have hdrop := weight_drop_le rest (j - (i + 1))
      rw [measure_of_isLoop hloop, measure_of_isLoop hnext, weight_cons]
      omega
    | @reread _ i k l rest hk hlt hl =>
      have hdrop := weight_drop_le rest (j - (i + 1))
      unfold measure
      simp only [weight_cons]
      omega

end BlockReader

end Polyglot.Data
