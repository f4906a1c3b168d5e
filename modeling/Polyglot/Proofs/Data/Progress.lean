import Polyglot.Proofs.Data.BlockTurns
import Polyglot.Proofs.Data.Torn

/-!
# Progress

No reader stands still. Inside a flow collection each turn of a loop takes at least one octet and
none behind the end (`FlowReader.progresses`). Among the lines, each turn of a loop goes on at a later
line and at most behind the last, also the turn that reads an item on its own line, for a block takes
the line where it begins (`BlockReader.Stands.progresses`). So every reader ends. If one does not end
at a place, then a character is torn, and the errors of the shadow tell where (`readers_progress`).
-/

namespace Polyglot.Data

open Text

variable {s : String} {c : Cursor} {i j k n : ℕ} {l : Line} {rest : List Line}

/-! ## Flow collections -/

namespace FlowReader

variable {f g : FlowReader}

theorem bounds_of_ends (h : Turn.Ends (turn s c) f (.ok n)) :
    f.taken ≤ c.rest.length → f.taken ≤ n ∧ n ≤ c.rest.length := by
  refine h.of_turns (P := fun f n => f.taken ≤ c.rest.length → f.taken ≤ n ∧ n ≤ c.rest.length)
    (fun hturn hf => ?_) (fun hturn ih hf => ?_) fun {_ _ _ m _} hturn ih ihback hf => ?_
  · obtain ⟨hle, hend⟩ := turn_advances hturn
    exact ⟨hle, hend hf⟩
  · obtain ⟨hlt, hle⟩ := turn_advances hturn
    obtain ⟨hn, hend⟩ := ih hle
    exact ⟨by omega, hend⟩
  · obtain ⟨-, -, -, hle, -, hback⟩ := turn_advances hturn
    obtain ⟨hlt, hmore⟩ := hback m
    obtain ⟨hn, hend⟩ := ihback (hmore (ih hle).2)
    exact ⟨by omega, hend⟩

theorem lt_of_next (h : Turn.Next (turn s c) f g) :
    f.taken < g.taken ∧ g.taken ≤ c.rest.length := by
  cases h with
  | go hturn => exact turn_advances hturn
  | @back _ _ m hturn hinner =>
    obtain ⟨-, -, -, hle, -, hback⟩ := turn_advances hturn
    obtain ⟨hlt, hmore⟩ := hback m
    exact ⟨hlt, hmore (bounds_of_ends hinner hle).2⟩

/-- The reader ends, without an octet that it gives back or takes behind the end. -/
structure Progresses (s : String) (c : Cursor) (f : FlowReader) : Prop where
  ends : Turn.Ends (turn s c) f (f.answer s c)
  done : ∀ {n}, Turn.Ends (turn s c) f (.ok n) → f.taken ≤ n ∧ n ≤ c.rest.length
  next : ∀ {g}, Turn.Next (turn s c) f g → f.taken < g.taken ∧ g.taken ≤ c.rest.length
  calls : ∀ {g}, Turn.Calls (turn s c) f g → f.taken ≤ g.taken ∧ g.taken ≤ c.rest.length

/-- **Flow collections.** Every turn after which the same task goes on takes an octet. -/
theorem progresses (s : String) (hf : f.taken ≤ c.rest.length) : f.Progresses s c where
  ends := (settles s c).ends f
  done h := bounds_of_ends h hf
  next := lt_of_next
  calls h := by
    obtain ⟨back, hturn⟩ := h
    obtain ⟨-, -, hle, hend, -⟩ := turn_advances hturn
    exact ⟨hle, hend⟩

end FlowReader

theorem Cursor.advance_zero (c : Cursor) : c.advance 0 = c := by simp [advance]

/-- Where the octets of a flow collection are read. -/
def flowCursor (s : String) (start : ℕ) (cs : List Char) (parentIndent : ℕ) (rest : List Line) :
    Cursor :=
  ⟨start, none, octetsAt s ⟨start, flowStop s start cs parentIndent rest⟩⟩

/-- The lines of a flow collection are read if and only if its octets are. -/
theorem exists_blockFlow_iff (s : String) (start : ℕ) (cs : List Char) (parentIndent : ℕ)
    (rest : List Line) : (∃ t, blockFlow s start cs parentIndent rest = .ok t) ↔
      ∃ n, Turn.Ends (FlowReader.turn s (flowCursor s start cs parentIndent rest)) ⟨.value, 0⟩
        (.ok n) := by
  simp only [(FlowReader.settles s _).ends_iff, FlowReader.answer]
  rw [show (flowCursor s start cs parentIndent rest).advance 0 =
    flowCursor s start cs parentIndent rest from Cursor.advance_zero _, blockFlow_eq]
  dsimp only
  rw [bind_pure_eq_map]
  exact exists_map_eq_ok_iff

/-- Each line that a flow collection takes begins in front of its end. -/
theorem start_lt_of_blockFlow {start parentIndent : ℕ} {cs : List Char} {t : Taken Tree}
    (h : blockFlow s start cs parentIndent rest = .ok t) :
    ∀ m ∈ rest.take t.used, m.start < flowStop s start cs parentIndent rest := by
  intro m hm
  rw [blockFlow_used h, ← List.prefix_iff_eq_take.1 (List.takeWhile_prefix _)] at hm
  simpa using List.mem_takeWhile_imp hm

/-! ## Lines -/

theorem Line.advance_advance (l : Line) (j k : ℕ) :
    (l.advance j).advance k = l.advance (j + k) := by
  simp only [advance, List.drop_drop, Nat.add_assoc]

namespace BlockReader

variable {r g : BlockReader} {task : BlockTask}

theorem bounds_of_ends (h : Turn.Ends (turn s) r (.ok n)) :
    r.pos ≤ n ∧ n ≤ r.pos + r.lines.length := by
  refine h.of_turns (P := fun r n => r.pos ≤ n ∧ n ≤ r.pos + r.lines.length)
    (fun hturn => ?_) (fun hturn ih => ?_) fun hturn ih ihback => ?_
  · cases turn_moves hturn with
    | stop => exact ⟨le_rfl, Nat.le_add_right ..⟩
    | value hk =>
      dsimp only [List.length_cons]
      omega
  · cases turn_moves hturn with
    | enter => exact ih
    | pass =>
      simp only [List.length_drop, List.length_cons] at ih ⊢
      omega
    | descend hlines =>
      have hlength := congrArg List.length hlines
      simp only [List.length_drop, List.length_cons] at hlength ih ⊢
      omega
  · cases turn_moves hturn with
    | below | reread =>
      simp only [List.length_drop, List.length_cons] at ih ihback ⊢
      omega

/-- A block takes the line where it begins. -/
theorem lt_of_ends_block (h : Turn.Ends (turn s) ⟨.block, i, l :: rest⟩ (.ok n)) : i < n := by
  obtain ⟨t, -, rfl⟩ := exists_of_map_eq_ok ((settles s).eq_of_ends h)
  omega

theorem lt_of_next (h : Turn.Next (turn s) r g) :
    r.pos ≤ g.pos ∧ (r.task.IsLoop → r.pos < g.pos) := by
  cases h with
  | go hturn =>
    cases turn_moves hturn with
    | enter | descend => exact ⟨by dsimp only; omega, False.elim⟩
    | pass => exact ⟨by dsimp only; omega, fun _ => by dsimp only; omega⟩
  | back hturn hinner =>
    cases turn_moves hturn with
    | below =>
      have hle := (bounds_of_ends hinner).1
      exact ⟨by dsimp only at hle ⊢; omega, fun _ => hle⟩
    | reread =>
      have hlt := lt_of_ends_block hinner
      exact ⟨hlt.le, fun _ => hlt⟩

/-! ## Readers of a text -/

/-- What is left to the reader are the lines of the text from its place on, but for the front of the
first. A block begins on a line with content. -/
structure Stands (s : String) (r : BlockReader) : Prop where
  pos_le : r.pos ≤ (linesOf s).length
  lines : ∃ k, r.lines = ((linesOf s).drop r.pos).modifyHead (·.advance k)
  content : r.task = .block → ∃ l ∈ r.lines.head?, l.isBlank = false

theorem Stands.length (h : Stands s r) : r.pos + r.lines.length = (linesOf s).length := by
  obtain ⟨k, hk⟩ := h.lines
  rw [hk, List.length_modifyHead, List.length_drop]
  have hle := h.pos_le
  omega

theorem Stands.rest_eq (h : Stands s ⟨task, i, l :: rest⟩) : rest = (linesOf s).drop (i + 1) := by
  obtain ⟨k, hk⟩ := h.lines
  have htail := congrArg List.tail hk
  rwa [List.tail_modifyHead, List.tail_drop] at htail

theorem modifyHead_advance_zero (lines : List Line) : lines.modifyHead (·.advance 0) = lines := by
  rcases lines with _ | ⟨l, rest⟩
  · rfl
  · rfl

/-- At a later line. -/
theorem Stands.behind (h : Stands s ⟨task, i, l :: rest⟩) {next : BlockTask} (hnext : next ≠ .block)
    (hlt : i < j) (hle : j ≤ i + 1 + rest.length) :
    Stands s ⟨next, j, rest.drop (j - (i + 1))⟩ where
  pos_le := by
    have hlength := h.length
    dsimp only [List.length_cons] at hlength ⊢
    omega
  lines := ⟨0, by
    rw [modifyHead_advance_zero, h.rest_eq, List.drop_drop]
    exact congrArg (List.drop · _) (by dsimp only; omega)⟩
  content hblock := absurd hblock hnext

/-- Behind blank lines. -/
theorem Stands.drop {lines : List Line} (h : Stands s ⟨task, i, lines⟩)
    (hlines : lines.drop k = l :: rest) (hl : l.isBlank = false) :
    Stands s ⟨.block, i + k, l :: rest⟩ where
  pos_le := by
    have hlength := h.length
    have hrest := congrArg List.length hlines
    simp only [List.length_drop, List.length_cons] at hlength hrest ⊢
    omega
  lines := by
    obtain ⟨j, hj⟩ := h.lines
    rw [← hlines, show lines = _ from hj, ← List.drop_drop]
    rcases Nat.eq_zero_or_pos k with rfl | hk
    · exact ⟨j, rfl⟩
    · exact ⟨0, by rw [modifyHead_advance_zero, List.drop_modifyHead_of_pos hk]⟩
  content _ := ⟨l, rfl, hl⟩

theorem Stands.next (h : r.Stands s) (hnext : Turn.Next (turn s) r g) : g.Stands s := by
  cases hnext with
  | go hturn =>
    cases turn_moves hturn with
    | enter hloop => exact ⟨h.pos_le, h.lines, fun hblock => absurd hblock hloop.ne_block⟩
    | @pass _ _ i k _ _ _ hloop hk =>
      have hbehind := h.behind hloop.ne_block (j := i + 1 + k) (by omega) (by omega)
      rwa [Nat.add_sub_cancel_left] at hbehind
    | descend hlines hl => exact h.drop hlines hl
  | back hturn hinner =>
    cases turn_moves hturn with
    | below _ hloop =>
      obtain ⟨hle, hend⟩ := bounds_of_ends hinner
      exact h.behind hloop.ne_block hle hend
    | reread =>
      -- The block began on this line, so only its own progress leads behind the line.
      obtain ⟨-, hend⟩ := bounds_of_ends hinner
      refine h.behind (BlockTask.IsLoop.ne_block trivial) (lt_of_ends_block hinner) ?_
      dsimp only [List.length_cons] at hend
      omega

theorem Stands.calls (h : r.Stands s) (hcalls : Turn.Calls (turn s) r g) : g.Stands s := by
  obtain ⟨back, hturn⟩ := hcalls
  cases turn_moves hturn with
  | @below _ _ parentIndent anchor i underKey _ rest =>
    have hbehind : Stands s
        ⟨.nested parentIndent underKey anchor, i + 1, rest.drop (i + 1 - (i + 1))⟩ :=
      h.behind (by rintro ⟨⟩) (Nat.lt_succ_self i) (Nat.le_add_right ..)
    rwa [Nat.sub_self] at hbehind
  | @reread _ _ k l rest _ _ hl =>
    -- The front may have been read by the sequences around this one.
    obtain ⟨j, hj⟩ := h.lines
    refine ⟨h.pos_le, ⟨j + k, ?_⟩, fun _ => ⟨_, rfl, hl⟩⟩
    have hadvance : l.advance k :: rest = (l :: rest).modifyHead (·.advance k) := rfl
    rw [hadvance, show l :: rest = _ from hj, List.modifyHead_modifyHead]
    exact congrArg (List.modifyHead · _) (funext fun m => m.advance_advance j k)

/-- The item on the line of `r` is read as a block: on the same line, but further to the right. -/
def Rereads (r g : BlockReader) : Prop :=
  ∃ l rest k, r.lines = l :: rest ∧ g = ⟨.block, r.pos, l.advance k :: rest⟩ ∧
    l.contentStart < (l.advance k).contentStart ∧
    (l.advance k).contentStart < (l.advance k).contentEnd ∧
    (l.advance k).contentEnd = l.contentEnd

theorem rereads_of_calls (h : Turn.Calls (turn s) r g) : g.pos = r.pos + 1 ∨ r.Rereads g := by
  obtain ⟨back, hturn⟩ := h
  cases turn_moves hturn with
  | below => exact .inl rfl
  | @reread _ _ k l rest hk hlt _ =>
    refine .inr ⟨l, rest, k, rfl, rfl, ?_⟩
    simp only [Line.contentEnd, Line.contentStart, Line.advance, List.length_drop]
    omega

/-- The reader ends, at a later line if it reads a block, and each turn of a loop leads to one. -/
structure Progresses (s : String) (r : BlockReader) : Prop where
  stands : r.Stands s
  ends : Turn.Ends (turn s) r (r.answer s)
  done : ∀ {n}, Turn.Ends (turn s) r (.ok n) →
    r.pos ≤ n ∧ n ≤ (linesOf s).length ∧ (r.task = .block → r.pos < n)
  next : ∀ {g}, Turn.Next (turn s) r g → r.pos ≤ g.pos ∧ (r.task.IsLoop → r.pos < g.pos)
  calls : ∀ {g}, Turn.Calls (turn s) r g → g.pos = r.pos + 1 ∨ r.Rereads g

theorem Stands.progresses (h : r.Stands s) : r.Progresses s where
  stands := h
  ends := (settles s).ends r
  done hends := by
    obtain ⟨hle, hend⟩ := bounds_of_ends hends
    refine ⟨hle, h.length ▸ hend, fun hblock => ?_⟩
    obtain ⟨task, i, lines⟩ := r
    obtain rfl : task = .block := hblock
    obtain ⟨l, hl, -⟩ := h.content rfl
    obtain ⟨rest, rfl⟩ := List.head?_eq_some_iff.1 hl
    exact lt_of_ends_block hends
  next := lt_of_next
  calls := rereads_of_calls

/-- The reader of the whole text. -/
def first (s : String) : BlockReader :=
  ⟨.block, ((linesOf s).takeWhile Line.isBlank).length, (linesOf s).dropWhile Line.isBlank⟩

/-- Reading the text leads to the reader. -/
def Reached (s : String) (r : BlockReader) : Prop :=
  (first s).lines ≠ [] ∧ Turn.Leads (turn s) (first s) r

theorem stands_first (h : (first s).lines ≠ []) : (first s).Stands s where
  pos_le := (List.takeWhile_sublist _).length_le
  lines := ⟨0, by
    have hlines := congrArg (List.drop ((linesOf s).takeWhile Line.isBlank).length)
      (List.takeWhile_append_dropWhile (p := Line.isBlank) (l := linesOf s))
    rw [List.drop_left] at hlines
    rw [modifyHead_advance_zero]
    exact hlines⟩
  content _ := ⟨_, List.head?_eq_some_head h, List.head_dropWhile_not Line.isBlank h⟩

theorem Reached.stands (h : Reached s r) : r.Stands s := by
  obtain ⟨hne, hleads⟩ := h
  induction hleads with
  | refl => exact stands_first hne
  | tail _ hstep ih => exact hstep.elim ih.next ih.calls

/-! ## Documents -/

theorem exists_ofText_iff (s : String) :
    (∃ d, Document.ofText s = .ok d) ↔ ∃ n, answer s (first s) = .ok n := by
  unfold Document.ofText first
  rcases (linesOf s).dropWhile Line.isBlank with _ | ⟨l, rest⟩
  · exact iff_of_true ⟨_, rfl⟩ ⟨_, rfl⟩
  · dsimp only [answer]
    rw [bind_pure_eq_map]
    exact exists_map_eq_ok_iff

/-- Every reader is done at a place if and only if the text has a document. -/
theorem forall_reached_iff (s : String) :
    (∀ r, Reached s r → ∃ n, Turn.Ends (turn s) r (.ok n)) ↔ ∃ d, Document.ofText s = .ok d := by
  simp only [(settles s).ends_iff]
  rw [exists_ofText_iff]
  constructor
  · intro h
    -- A text without content has a document, but no reader is reached.
    by_cases hne : (first s).lines = []
    · unfold first at hne ⊢
      dsimp only at hne
      rw [hne]
      exact ⟨_, rfl⟩
    · exact h _ ⟨hne, .refl⟩
  · rintro ⟨n, hn⟩ r ⟨-, hleads⟩
    exact (settles s).exists_of_leads hleads hn

end BlockReader

/-- No error of the shadow cuts a character if and only if the text has a document. -/
theorem exists_ofText_iff_fits {d' : Document} (hd' : Document.ofText (shadow s) = .ok d') :
    (∃ d, Document.ofText s = .ok d) ↔ ∀ e ∈ d'.errors, e.span.Fits s := by
  have hmirrors := ofText_mirrors hd'
  rcases hs : Document.ofText s with _ | d
  all_goals rw [hs] at hmirrors
  · obtain ⟨e, he, hcut⟩ := hmirrors
    exact iff_of_false (by rintro ⟨d, ⟨⟩⟩) fun h => hcut (h e he)
  · exact iff_of_true ⟨d, rfl⟩ hmirrors

/-- **Progress.** Every reader that a text leads to ends. All end at a place if and only if no error of
the shadow, which always has a document, cuts a character of the text. On the way the turns of a loop
lead to later lines, and inside a flow collection to later octets. -/
theorem readers_progress (s : String) :
    (∃ d', Document.ofText (shadow s) = .ok d' ∧
      ((∀ r, BlockReader.Reached s r → ∃ n, Turn.Ends (BlockReader.turn s) r (.ok n)) ↔
        ∀ e ∈ d'.errors, e.span.Fits s)) ∧
    (∀ r, BlockReader.Reached s r → r.Progresses s) ∧
    (∀ c f, f.taken ≤ c.rest.length → FlowReader.Progresses s c f) ∧
    ∀ start cs parentIndent rest,
      ((∃ t, blockFlow s start cs parentIndent rest = .ok t) ↔
        ∃ n, Turn.Ends (FlowReader.turn s (flowCursor s start cs parentIndent rest)) ⟨.value, 0⟩
          (.ok n)) ∧
      ∀ t, blockFlow s start cs parentIndent rest = .ok t → t.used ≤ rest.length ∧
        ∀ m ∈ rest.take t.used, m.start < flowStop s start cs parentIndent rest := by
  obtain ⟨d', hd', -⟩ := (ofText_reads (shadow s)).of_ascii (isAscii_shadow s)
  refine ⟨⟨d', hd', ?_⟩, fun r hr => hr.stands.progresses,
    fun c f hf => FlowReader.progresses s hf, fun start cs parentIndent rest => ?_⟩
  · rw [BlockReader.forall_reached_iff]
    exact exists_ofText_iff_fits hd'
  · refine ⟨exists_blockFlow_iff .., fun t ht => ⟨?_, start_lt_of_blockFlow ht⟩⟩
    rw [blockFlow_used ht]
    exact (List.takeWhile_sublist _).length_le

/-- The block is never done: behind the entry `"a"` a reader steps into the two-byte character. -/
theorem not_done_quotedEntry :
    BlockReader.Reached "k: [\"a\"é]" (BlockReader.first "k: [\"a\"é]") ∧
      ¬ ∃ n, Turn.Ends (BlockReader.turn "k: [\"a\"é]") (BlockReader.first "k: [\"a\"é]") (.ok n) := by
  refine ⟨⟨by decide +kernel, .refl⟩, ?_⟩
  rintro ⟨n, hn⟩
  have hanswer := (BlockReader.settles _).eq_of_ends hn
  have hfail : (BlockReader.answer "k: [\"a\"é]" (BlockReader.first "k: [\"a\"é]")).isOk = false := by
    decide +kernel
  rw [hanswer] at hfail
  cases hfail

end Polyglot.Data
