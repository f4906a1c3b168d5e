import Polyglot.Proofs.Turns
import Polyglot.Proofs.Data.Order

/-!
# Flow collections, turn by turn

A flow collection is read in turns: each passes over a comma, or reads one entry and what follows it
up to the next. A turn ends the collection or takes at least one octet more, and it takes no octet
behind the end (`FlowReader.turn_advances`). So every collection is read to an end, and what the turns
lead to is what the readers of values, items and pairs answer (`FlowReader.settles`).
-/

namespace Polyglot.Data

variable {s : String} {c : Cursor} {i j k n : ℕ}

/-- A last step that only adds to what is taken. -/
theorem map_used_bind {α β : Type} (x : Except TornCharacter (Taken α))
    {g : Taken α → Taken β} (hg : ∀ t, k + (g t).used = j + t.used) :
    (x >>= fun t => pure (g t)).map (k + ·.used) = x.map (j + ·.used) := by
  rcases x with e | t
  · rfl
  · exact congrArg Except.ok (hg t)

/-! ## Turns -/

/-- What is read inside a flow collection. -/
inductive FlowTask where
  | value
  /-- The items of the sequence whose bracket is at `opened`. -/
  | items (opened : ℕ)
  /-- The pairs of the mapping whose brace is at `opened`, after pairs with the keys `seen`. -/
  | pairs (opened : ℕ) (seen : List String)
deriving DecidableEq, Repr

/-- A task, and how many octets are taken when it is taken up. -/
structure FlowReader where
  task : FlowTask
  taken : ℕ
deriving DecidableEq, Repr

/-- Where the next entry is looked for, if the entry at `start` ends at `stop`. -/
def entryEnd (c : Cursor) (start stop : ℕ) (closer : Char) : ℕ :=
  max (start + 1) (stop + (finishEntry (c.advance stop) closer).used)

namespace FlowReader

/-- A turn of a reader of the octets from `c` on. -/
def turn (s : String) (c : Cursor) (f : FlowReader) : Except TornCharacter (Turn FlowReader) :=
  let here := (c.advance f.taken).skip
  let start := f.taken + (c.advance f.taken).gap
  match f.task with
  | .value =>
    if here.rest = [] then .ok (.done start)
    else if here.rest.head? = some '[' then .ok (.go ⟨.items here.offset, start + 1⟩)
    else if here.rest.head? = some '\x7b' then .ok (.go ⟨.pairs here.offset [], start + 1⟩)
    else do
      let scalar ← flowKey s here
      return .done (start + scalar.used)
  | .items opened =>
    if here.rest = [] then .ok (.done start)
    else if here.rest.head? = some ']' then .ok (.done (start + 1))
    else if here.rest.head? = some ',' then .ok (.go ⟨.items opened, start + 1⟩)
    else .ok (.call ⟨.value, start⟩ fun stop => ⟨.items opened, entryEnd c start stop ']'⟩)
  | .pairs opened seen =>
    if here.rest = [] then .ok (.done start)
    else if here.rest.head? = some '\x7d' then .ok (.done (start + 1))
    else if here.rest.head? = some ',' then .ok (.go ⟨.pairs opened seen, start + 1⟩)
    else do
      let key ← flowKey s here
      let colon := start + key.used + (here.advance key.used).gap
      let back stop : FlowReader :=
        ⟨.pairs opened (key.value.key :: seen), entryEnd c start stop '\x7d'⟩
      if (here.advance key.used).skip.rest.head? = some ':' then
        return .call ⟨.value, colon + 1⟩ back
      else return .go (back colon)

/-- How many octets are taken when the task is done. -/
def answer (s : String) (c : Cursor) (f : FlowReader) : Except TornCharacter ℕ :=
  match f.task with
  | .value => (flowTree s (c.advance f.taken)).map (f.taken + ·.used)
  | .items opened => (flowItems s opened (c.advance f.taken)).map (f.taken + ·.used)
  | .pairs opened seen => (flowPairs s opened seen (c.advance f.taken)).map (f.taken + ·.used)

/-- What a turn can lead to: it takes no octet behind the end, and if the task goes on it takes at
least one. Only a task of a loop has a value read, and in front of that it may take none. -/
def Advances (c : Cursor) (f : FlowReader) : Turn FlowReader → Prop
  | .done n => f.taken ≤ n ∧ (f.taken ≤ c.rest.length → n ≤ c.rest.length)
  | .go g => f.taken < g.taken ∧ g.taken ≤ c.rest.length
  | .call g back => f.task ≠ .value ∧ g.task = .value ∧ f.taken ≤ g.taken ∧
      g.taken ≤ c.rest.length ∧ f.taken < c.rest.length ∧
      ∀ n, f.taken < (back n).taken ∧ (n ≤ c.rest.length → (back n).taken ≤ c.rest.length)

/-! ## Forward -/

/-- What is left behind blanks. -/
theorem room (c : Cursor) (k : ℕ) : (c.advance k).gap ≤ c.rest.length - k ∧
    (c.advance k).skip.rest.length = c.rest.length - k - (c.advance k).gap := by
  have hgap := (c.advance k).gap_le
  have hlen : (c.advance k).skip.rest.length =
      (c.advance k).rest.length - (c.advance k).gap := Cursor.length_rest_advance ..
  rw [Cursor.length_rest_advance] at hgap hlen
  exact ⟨hgap, hlen⟩

theorem advances_done {f : FlowReader} (hk : k ≤ (c.advance f.taken).skip.rest.length) :
    f.Advances c (.done (f.taken + (c.advance f.taken).gap + k)) := by
  obtain ⟨hgap, hlen⟩ := room c f.taken
  exact ⟨by omega, fun hle => by omega⟩

theorem advances_go {f : FlowReader} (hne : ¬ (c.advance f.taken).skip.rest = []) (task : FlowTask) :
    f.Advances c (.go ⟨task, f.taken + (c.advance f.taken).gap + 1⟩) := by
  obtain ⟨hgap, hlen⟩ := room c f.taken
  have hpos := List.length_pos_of_ne_nil hne
  exact ⟨by dsimp only; omega, by dsimp only; omega⟩

/-- Behind an entry that begins at `i`. -/
theorem entryEnd_bounds (hk : k ≤ i) (hi : i < c.rest.length) (closer : Char) (n : ℕ) :
    k < entryEnd c i n closer ∧
      (n ≤ c.rest.length → entryEnd c i n closer ≤ c.rest.length) := by
  have hfinish := finishEntry_used_le (c.advance n) closer
  rw [Cursor.length_rest_advance] at hfinish
  unfold entryEnd
  omega

/-- **Turns.** What a turn inside a flow collection can lead to. -/
theorem turn_advances {f : FlowReader} {t : Turn FlowReader} (h : f.turn s c = .ok t) :
    f.Advances c t := by
  obtain ⟨task, taken⟩ := f
  obtain ⟨hgap, hlen⟩ := room c taken
  unfold turn at h
  dsimp only at h
  cases task with
  | value =>
    dsimp only at h
    split_ifs at h with hnil hseq hmap
    · obtain rfl := Except.ok.inj h
      exact advances_done (Nat.zero_le _)
    · obtain rfl := Except.ok.inj h
      exact advances_go hnil _
    · obtain rfl := Except.ok.inj h
      exact advances_go hnil _
    · obtain ⟨scalar, hscalar, h⟩ := exists_of_bind_eq_ok h
      obtain rfl := Except.ok.inj h
      exact advances_done (flowKey_liesAt hscalar).used_le
  | items opened =>
    dsimp only at h
    split_ifs at h with hnil hclose hcomma
    · obtain rfl := Except.ok.inj h
      exact advances_done (Nat.zero_le _)
    all_goals
      have hpos := List.length_pos_of_ne_nil hnil
      obtain rfl := Except.ok.inj h
    · exact advances_done hpos
    · exact advances_go hnil _
    · have hentry := entryEnd_bounds (c := c) (Nat.le_add_right taken (c.advance taken).gap)
        (by omega)
      exact ⟨nofun, rfl, Nat.le_add_right .., by dsimp only; omega, by dsimp only; omega, hentry _⟩
  | pairs opened seen =>
    dsimp only at h
    split_ifs at h with hnil hclose hcomma
    · obtain rfl := Except.ok.inj h
      exact advances_done (Nat.zero_le _)
    all_goals have hpos := List.length_pos_of_ne_nil hnil
    · obtain rfl := Except.ok.inj h
      exact advances_done hpos
    · obtain rfl := Except.ok.inj h
      exact advances_go hnil _
    · obtain ⟨key, hkey, h⟩ := exists_of_bind_eq_ok h
      have hused := (flowKey_liesAt hkey).used_le
      obtain ⟨hcolon, hlen'⟩ := room (c.advance taken).skip key.used
      have hentry := entryEnd_bounds (c := c) (Nat.le_add_right taken (c.advance taken).gap)
        (by omega)
      split_ifs at h with hhead
      · obtain rfl := Except.ok.inj h
        have hpos' := List.length_pos_of_ne_nil (Cursor.ne_nil_of_head hhead)
        exact ⟨nofun, rfl, by dsimp only; omega, by dsimp only; omega, by dsimp only; omega,
          hentry _⟩
      · obtain rfl := Except.ok.inj h
        obtain ⟨hlt, hle⟩ := hentry '\x7d' (taken + (c.advance taken).gap + key.used +
          ((c.advance taken).skip.advance key.used).gap)
        exact ⟨hlt, hle (by omega)⟩

/-! ## Answers -/

theorem skip_eq (c : Cursor) (k : ℕ) :
    (c.advance k).skip = c.advance (k + (c.advance k).gap) := c.advance_advance ..

theorem skip_advance_eq (c : Cursor) (k j : ℕ) :
    (c.advance k).skip.advance j = c.advance (k + (c.advance k).gap + j) := by
  rw [skip_eq, Cursor.advance_advance]

/-- What is read behind an entry that takes `used` octets. -/
theorem map_used_entry {α β : Type} (more : Cursor → Except TornCharacter (Taken α)) (c : Cursor)
    (k used stop : ℕ) (closer : Char) (hstop : stop = k + (c.advance k).gap + used)
    {g : Taken α → Taken β} (hg : ∀ t, (g t).used = (c.advance k).gap +
      max 1 (used + (finishEntry ((c.advance k).skip.advance used) closer).used) + t.used) :
    ((more ((c.advance k).skip.advance
        (max 1 (used + (finishEntry ((c.advance k).skip.advance used) closer).used)))) >>=
      fun t => pure (g t)).map (k + ·.used) =
      (more (c.advance (entryEnd c (k + (c.advance k).gap) stop closer))).map
        (entryEnd c (k + (c.advance k).gap) stop closer + ·.used) := by
  have hend : entryEnd c (k + (c.advance k).gap) stop closer = k + (c.advance k).gap +
      max 1 (used + (finishEntry ((c.advance k).skip.advance used) closer).used) := by
    rw [skip_advance_eq, entryEnd, hstop]
    omega
  rw [hend, ← skip_advance_eq]
  exact map_used_bind _ fun t => by rw [hg t]; omega

theorem answer_value (s : String) (c : Cursor) (k : ℕ) :
    answer s c ⟨.value, k⟩ = turn s c ⟨.value, k⟩ >>= Turn.answer (answer s c) := by
  unfold turn
  simp only [answer]
  rw [flowTree_eq]
  split_ifs with hnil hseq hmap
  · rfl
  · rw [skip_advance_eq]
    exact map_used_bind _ fun t => by dsimp only; omega
  · rw [skip_advance_eq]
    exact map_used_bind _ fun t => by dsimp only; omega
  · rcases flowKey s (c.advance k).skip with e | scalar
    · rfl
    · exact congrArg Except.ok (by dsimp only; omega)

theorem answer_items (s : String) (c : Cursor) (opened k : ℕ) :
    answer s c ⟨.items opened, k⟩ = turn s c ⟨.items opened, k⟩ >>= Turn.answer (answer s c) := by
  unfold turn
  simp only [answer]
  rw [flowItems_eq]
  split_ifs with hnil hclose hcomma
  · rfl
  · rfl
  · rw [skip_advance_eq]
    exact map_used_bind _ fun t => by dsimp only; omega
  · show _ = answer s c ⟨.value, _⟩ >>= fun n => answer s c ⟨.items opened, _⟩
    simp only [answer, ← skip_eq]
    rcases flowTree s (c.advance k).skip with e | item
    · rfl
    · exact map_used_entry (flowItems s opened) c k item.used _ ']' rfl fun t => rfl

theorem answer_pairs (s : String) (c : Cursor) (opened : ℕ) (seen : List String) (k : ℕ) :
    answer s c ⟨.pairs opened seen, k⟩ =
      turn s c ⟨.pairs opened seen, k⟩ >>= Turn.answer (answer s c) := by
  unfold turn
  simp only [answer]
  rw [flowPairs_eq]
  split_ifs with hnil hclose hcomma
  · rfl
  · rfl
  · rw [skip_advance_eq]
    exact map_used_bind _ fun t => by dsimp only; omega
  · rcases flowKey s (c.advance k).skip with e | key
    · rfl
    · show (flowValue s _ >>= _).map _ = (if _ then _ else _) >>= _
      unfold flowValue
      split_ifs with hcolon
      · have hvalue : ((c.advance k).skip.advance key.used).skip.advance 1 =
            c.advance (k + (c.advance k).gap + key.used +
              ((c.advance k).skip.advance key.used).gap + 1) := by
          rw [skip_advance_eq c k key.used, skip_advance_eq]
        rw [hvalue]
        show _ = answer s c ⟨.value, _⟩ >>= fun n => answer s c ⟨.pairs opened _, _⟩
        simp only [answer]
        rcases flowTree s (c.advance _) with e | value
        · rfl
        · exact map_used_entry (flowPairs s opened (key.value.key :: seen)) c k
            (key.used + (((c.advance k).skip.advance key.used).gap + 1 + value.used)) _ '\x7d'
            (by dsimp only; omega) fun t => rfl
      · exact map_used_entry (flowPairs s opened (key.value.key :: seen)) c k
          (key.used + ((c.advance k).skip.advance key.used).gap) _ '\x7d' (by omega) fun t => rfl

/-- Two steps for each octet that is left, and one in between for the value of an entry. -/
def measure (c : Cursor) (f : FlowReader) : ℕ :=
  2 * (c.rest.length - f.taken) + if f.task = .value then 1 else 2

/-- **Answers.** The turns inside a flow collection lead to what its readers answer. -/
theorem settles (s : String) (c : Cursor) :
    Turn.Settles (turn s c) (answer s c) (measure c) where
  eq_answer f := by
    obtain ⟨task, k⟩ := f
    cases task with
    | value => exact answer_value s c k
    | items opened => exact answer_items s c opened k
    | pairs opened seen => exact answer_pairs s c opened seen k
  go_lt h := by
    obtain ⟨hlt, hle⟩ := turn_advances h
    unfold measure
    split_ifs <;> omega
  call_lt h := by
    obtain ⟨hloop, hvalue, hle, -, hlt, -⟩ := turn_advances h
    unfold measure
    rw [if_pos hvalue, if_neg hloop]
    omega
  back_lt {_ _ _ n} h _ := by
    obtain ⟨hloop, -, -, -, hlt, hback⟩ := turn_advances h
    have hmore := (hback n).1
    unfold measure
    rw [if_neg hloop]
    split_ifs <;> omega

end FlowReader

end Polyglot.Data
