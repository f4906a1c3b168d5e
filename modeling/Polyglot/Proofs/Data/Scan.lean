import Polyglot.Proofs.Text.Stretch
import Polyglot.Data.Block

/-!
# Where scans stop

Every scan of the data reader counts octets from the front of a list. All its delimiters are ASCII,
so what it counts ends at a seam, whatever the octets are.
-/

namespace Polyglot.Data

open Text

variable {cs : List Char} {c d quote : Char} {previous : Option Char} {n : ℕ} {e : KeyExtent}

/-! ## Delimiters -/

theorem isAsciiOctet_of_isBlank (h : isBlank c = true) : IsAsciiOctet c := by
  simp only [isBlank, Bool.or_eq_true, beq_iff_eq] at h
  rcases h with rfl | rfl <;> decide

theorem isAsciiOctet_of_isFlowBlank (h : isFlowBlank c = true) : IsAsciiOctet c := by
  simp only [isFlowBlank, Bool.or_eq_true, beq_iff_eq] at h
  rcases h with (h | rfl) | rfl
  · exact isAsciiOctet_of_isBlank h
  · decide
  · decide

/-! ## Scans of a line -/

theorem isSeam_blanks : IsSeam cs (blanks cs) :=
  isSeam_takeWhile fun _ => isAsciiOctet_of_isBlank

theorem isSeam_trimEnd (h : IsSeam cs n) : IsSeam cs (trimEnd (cs.take n)).length := by
  unfold trimEnd
  rw [List.length_reverse]
  exact h.trimmed fun _ => isAsciiOctet_of_isBlank

theorem halts_beforeComment : Halts cs (beforeComment previous cs) := by
  induction cs generalizing previous with
  | nil => exact Or.inl rfl
  | cons c cs ih =>
    unfold beforeComment
    split_ifs with h
    · exact halts_zero (h.1 ▸ by decide)
    · exact ih.cons

theorem isSeam_plainLength : IsSeam cs (plainLength cs) := isSeam_trimEnd halts_beforeComment.isSeam

/-- Behind the counted octets stands the closing quote. -/
theorem getElem?_beforeClosingQuote (h : beforeClosingQuote? quote cs = some n) :
    cs[n]? = some quote := by
  fun_induction beforeClosingQuote? quote cs generalizing n with
  | case1 => simp at h
  | case2 => simp at h
  | case3 c d rest _ ih =>
    obtain ⟨m, hm, rfl⟩ := Option.map_eq_some_iff.1 h
    exact ih hm
  | case4 d rest _ _ ih =>
    obtain ⟨m, hm, rfl⟩ := Option.map_eq_some_iff.1 h
    exact ih hm
  | case5 d rest =>
    obtain rfl := Option.some.inj h
    rfl
  | case6 c d rest _ _ ih =>
    obtain ⟨m, hm, rfl⟩ := Option.map_eq_some_iff.1 h
    exact ih hm
  | case7 =>
    obtain rfl := Option.some.inj h
    rfl
  | case8 => simp at h

theorem eq_colon_of_beginsSeparator (h : beginsSeparator cs = true) : cs[0]? = some ':' := by
  unfold beginsSeparator at h
  split at h
  · rfl
  · simp at h

/-- Behind the counted octets stands the colon. -/
theorem getElem?_beforeSeparator (h : beforeSeparator? previous cs = some n) :
    cs[n]? = some ':' := by
  induction cs generalizing previous n with
  | nil => simp [beforeSeparator?] at h
  | cons c cs ih =>
    unfold beforeSeparator? at h
    split_ifs at h with hc hsep
    · obtain rfl := Option.some.inj h
      exact eq_colon_of_beginsSeparator hsep
    · obtain ⟨m, hm, rfl⟩ := Option.map_eq_some_iff.1 h
      exact ih hm

theorem isSeam_findKey (h : findKey? cs = some e) : IsSeam cs e.key ∧ IsSeam cs e.colonEnd := by
  unfold findKey? at h
  split at h
  · simp at h
  · simp at h
  · simp at h
  · simp at h
  · next c rest _ _ _ =>
    split_ifs at h with hq
    · obtain ⟨n, hn, h⟩ := Option.bind_eq_some_iff.1 h
      dsimp only at h
      split_ifs at h with hsep
      obtain rfl := Option.some.inj h
      have hascii : IsAsciiOctet c := by rcases hq with rfl | rfl <;> decide
      have hcolon := eq_colon_of_beginsSeparator hsep
      rw [List.getElem?_drop, Nat.add_zero] at hcolon
      have hclose : (c :: rest)[n + 1]? = some c := by
        rw [List.getElem?_cons_succ]
        exact getElem?_beforeClosingQuote hn
      exact ⟨.after hclose hascii, .after hcolon (by decide)⟩
    · obtain ⟨n, hn, rfl⟩ := Option.map_eq_some_iff.1 h
      have hcolon := getElem?_beforeSeparator hn
      exact ⟨isSeam_trimEnd (.before hcolon (by decide)), .after hcolon (by decide)⟩

/-! ## Scans of a flow collection -/

/-- The last of `n` octets is a closing bracket. -/
def ClosedBy (cs : List Char) (n : ℕ) : Prop :=
  ∃ m, n = m + 1 ∧ (cs[m]? = some ']' ∨ cs[m]? = some '\x7d')

theorem ClosedBy.cons (h : ClosedBy cs n) : ClosedBy (c :: cs) (n + 1) := by
  obtain ⟨m, rfl, h⟩ := h
  exact ⟨m + 1, rfl, h⟩

theorem ClosedBy.isSeam (h : ClosedBy cs n) : IsSeam cs n := by
  obtain ⟨m, rfl, h | h⟩ := h <;> exact .after h (by decide)

theorem closedBy_of_map {r : Option ℕ} (hr : ∀ {m}, r = some m → ClosedBy cs m)
    (h : r.map (· + 1) = some n) : ClosedBy (c :: cs) n := by
  obtain ⟨m, hm, rfl⟩ := Option.map_eq_some_iff.1 h
  exact (hr hm).cons

/-- The extent of a collection ends with a closing bracket. -/
theorem closedBy_extent {depth : ℕ} {comment : Bool} {open? : Option Char}
    (h : extent? depth open? comment previous cs = some n) : ClosedBy cs n := by
  fun_induction extent? depth open? comment previous cs generalizing n with
  | case1 => simp at h
  | case2 _ _ _ _ _ ih => exact closedBy_of_map ih h
  | case3 => simp at h
  | case4 _ _ _ _ _ _ _ _ _ ih =>
    obtain ⟨m, hm, rfl⟩ := Option.map_eq_some_iff.1 h
    exact (ih hm).cons.cons
  | case5 _ _ _ _ _ _ _ _ ih => exact closedBy_of_map ih h
  | case6 _ _ _ _ _ _ _ ih => exact closedBy_of_map ih h
  | case7 _ _ _ _ _ _ _ _ ih => exact closedBy_of_map ih h
  | case8 _ _ _ c _ _ _ _ hc =>
    obtain rfl := Option.some.inj h
    exact ⟨0, rfl, hc.imp (congrArg some) (congrArg some)⟩
  | case9 _ _ _ _ _ _ _ _ _ _ ih => exact closedBy_of_map ih h
  | case10 _ _ _ _ _ _ _ _ _ ih => exact closedBy_of_map ih h

/-- Blanks and comments end behind a blank or at the end; a comment takes at least one octet. -/
theorem isSeam_flowBlanks_and_pos {comment : Bool} :
    IsSeam cs (flowBlanks comment previous cs) ∧
      (comment = true → flowBlanks comment previous cs ≠ 0 ∨ cs = []) := by
  induction cs generalizing comment previous with
  | nil => exact ⟨.start, fun _ => Or.inr rfl⟩
  | cons c cs ih =>
    -- a comment goes on unless the octet is a line feed
    have hcomment : flowBlanks (c != '\n') (some c) cs ≠ 0 ∨
        flowBlanks (c != '\n') (some c) cs = cs.length ∨ IsAsciiOctet c := by
      by_cases hc : c = '\n'
      · exact Or.inr (Or.inr (hc ▸ by decide))
      · have hnext : flowBlanks (c != '\n') (some c) cs ≠ 0 ∨ cs = [] := ih.2 (by simpa using hc)
        rcases hnext with h | rfl
        · exact Or.inl h
        · exact Or.inr (Or.inl rfl)
    unfold flowBlanks
    split_ifs with h1 h2 h3
    · exact ⟨ih.1.cons hcomment, fun _ => Or.inl (Nat.succ_ne_zero _)⟩
    · exact ⟨ih.1.cons (Or.inr (Or.inr (isAsciiOctet_of_isFlowBlank h2))),
        fun _ => Or.inl (Nat.succ_ne_zero _)⟩
    · exact ⟨ih.1.cons (Or.inr (Or.inr (h3.1 ▸ by decide))),
        fun _ => Or.inl (Nat.succ_ne_zero _)⟩
    · exact ⟨.start, fun h => absurd h h1⟩

theorem isSeam_flowBlanks : IsSeam cs (flowBlanks false previous cs) := isSeam_flowBlanks_and_pos.1

theorem halts_flowPlainLength : Halts cs (flowPlainLength previous cs) := by
  induction cs generalizing previous with
  | nil => exact Or.inl rfl
  | cons c cs ih =>
    unfold flowPlainLength
    split_ifs with h1 h2 h3
    · refine halts_zero ?_
      simp at h1
      rcases h1 with rfl | rfl | rfl | rfl | rfl | rfl <;> decide
    · exact halts_zero (h2.1 ▸ by decide)
    · exact halts_zero (h3.1 ▸ by decide)
    · exact ih.cons

end Polyglot.Data
