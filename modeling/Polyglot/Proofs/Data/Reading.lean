import Polyglot.Proofs.Data.Shade

/-!
# What a reading gives

Two ways to say what a reading gives. `Both` promises a result, over a text and over its shadow: so
it is with scalars, whose tokens are cut out between seams. `Reads` allows a torn character, but in
no ASCII text: so it is with collections. The spans of a result are all those of its scalars and
collections.
-/

namespace Polyglot.Data

open Text

variable {α β : Type} {s : String} {P : α → Prop} {Q : β → Prop} {R : α → α → Prop}
  {S : β → β → Prop} {r r' : Except TornCharacter α} {f f' : α → Except TornCharacter β}

/-! ## Outcomes -/

/-- Both readings give a result, and `R` holds between the two. -/
def Both (R : α → α → Prop) (r r' : Except TornCharacter α) : Prop :=
  ∃ a b, r = .ok a ∧ r' = .ok b ∧ R a b

/-- `P` holds of the result; there is one if the text is ASCII. -/
def Reads (s : String) (P : α → Prop) : Except TornCharacter α → Prop
  | .ok a => P a
  | .error _ => ¬ IsAscii s

theorem both_pure {a b : α} (h : R a b) : Both R (pure a) (pure b) := ⟨a, b, rfl, rfl, h⟩

theorem Both.bind (h : Both R r r') (hf : ∀ a b, R a b → Both S (f a) (f' b)) :
    Both S (r >>= f) (r' >>= f') := by
  obtain ⟨a, b, rfl, rfl, hab⟩ := h
  exact hf a b hab

theorem Both.imp {R' : α → α → Prop} (h : Both R r r') (hR : ∀ a b, R a b → R' a b) :
    Both R' r r' := by
  obtain ⟨a, b, ha, hb, hab⟩ := h
  exact ⟨a, b, ha, hb, hR a b hab⟩

theorem Both.reads (h : Both R r r') : Reads s (fun a => ∃ b, R a b) r := by
  obtain ⟨a, b, rfl, -, hab⟩ := h
  exact ⟨b, hab⟩

theorem reads_ok {a : α} (h : P a) : Reads s P (.ok a) := h

theorem Reads.bind (h : Reads s P r) (hf : ∀ a, P a → Reads s Q (f a)) : Reads s Q (r >>= f) := by
  rcases r with e | a
  · exact h
  · exact hf a h

theorem Reads.imp {P' : α → Prop} (h : Reads s P r) (hP : ∀ a, P a → P' a) : Reads s P' r := by
  rcases r with e | a
  · exact h
  · exact hP a h

theorem Reads.map {g : α → β} (h : Reads s P r) (hg : ∀ a, P a → Q (g a)) :
    Reads s Q (r.map g) := by
  rcases r with e | a
  · exact h
  · exact hg a h

theorem Reads.of_ascii (h : Reads s P r) (hs : IsAscii s) : ∃ a, r = .ok a ∧ P a := by
  rcases r with e | a
  · exact absurd hs h
  · exact ⟨a, rfl, h⟩

/-! ## Spans of a result -/

mutual

/-- The spans of the scalars and collections of a tree. -/
def Tree.spans : Tree → List Span
  | .scalar x => [x.span]
  | .mapping _ span pairs => span :: spansOfPairs pairs
  | .sequence _ span items => span :: spansOfItems items

def spansOfPairs : List (Scalar × Tree) → List Span
  | [] => []
  | (key, value) :: rest => key.span :: value.spans ++ spansOfPairs rest

def spansOfItems : List Tree → List Span
  | [] => []
  | item :: rest => item.spans ++ spansOfItems rest

end

/-- The spans of a document: those of its root and those of its errors. -/
def Document.spans (d : Document) : List Span :=
  (d.root.map Tree.spans).getD [] ++ d.errors.map Error.span

theorem Tree.span_mem_spans (t : Tree) : t.span ∈ t.spans := by
  rcases t with x | ⟨flow, span, pairs⟩ | ⟨flow, span, items⟩ <;> simp [Tree.span, Tree.spans]

theorem mem_spansOfPairs {r : Span} {pairs : List (Scalar × Tree)} :
    r ∈ spansOfPairs pairs ↔ ∃ x ∈ pairs, r = x.1.span ∨ r ∈ x.2.spans := by
  induction pairs with
  | nil => simp [spansOfPairs]
  | cons x pairs ih => simp [spansOfPairs, ih, or_assoc]

theorem mem_spansOfItems {r : Span} {items : List Tree} :
    r ∈ spansOfItems items ↔ ∃ x ∈ items, r ∈ x.spans := by
  induction items with
  | nil => simp [spansOfItems]
  | cons x items ih => simp [spansOfItems, ih]

/-- Every span of a value and of the errors beside it fits. -/
structure Taken.Fits (s : String) (spans : α → List Span) (t : Taken α) : Prop where
  value : ∀ r ∈ spans t.value, r.Fits s
  errors : ∀ e ∈ t.errors, e.span.Fits s

/-- What is taken from the octets `cs` at `start` ends at a boundary among them. -/
structure Taken.Within (s : String) (start : ℕ) (cs : List Char) (spans : α → List Span)
    (t : Taken α) : Prop extends t.Fits s spans where
  used_le : t.used ≤ cs.length
  boundary : isBoundary s (start + t.used) = true

theorem forall_errors_nil : ∀ e ∈ ([] : List Error), e.span.Fits s :=
  fun _ he => absurd he List.not_mem_nil

/-! ## Tokens -/

variable {start : ℕ} {cs : List Char}

theorem exists_tokenText {r : Span} (h : r.Fits s) : ∃ text, tokenText s r = .ok text := by
  obtain ⟨text, htext⟩ := Span.exists_slice? h.1 h.2.1 h.2.2
  exact ⟨text, by rw [tokenText, htext]⟩

theorem tokenText_both {r : Span} (h : r.Fits s) :
    Both (fun _ _ => True) (tokenText s r) (tokenText (shadow s) r) := by
  obtain ⟨text, htext⟩ := exists_tokenText h
  obtain ⟨text', htext'⟩ : ∃ text, tokenText (shadow s) r = .ok text :=
    exists_tokenText ⟨h.1, isBoundary_shadow h.2.1, isBoundary_shadow h.2.2⟩
  exact ⟨text, text', htext, htext', trivial⟩

/-- A token that would begin inside a character is torn. -/
theorem tokenText_eq_error {r : Span} (h : ¬ isBoundary s r.start = true) :
    tokenText s r = .error ⟨r⟩ := by
  have hnone : r.slice? s = none := by
    rw [← Option.not_isSome_iff_eq_none, Span.isSome_slice?_iff]
    exact fun hr => h hr.2.1
  rw [tokenText, hnone]

theorem plainScalar_both {r : Span} (h : r.Fits s) :
    Both (fun x y => x.span = r ∧ y.span = r) (plainScalar s r) (plainScalar (shadow s) r) :=
  (tokenText_both h).bind fun _ _ _ => both_pure ⟨rfl, rfl⟩

theorem plainScalar_eq_error {r : Span} (h : ¬ isBoundary s r.start = true) :
    plainScalar s r = .error ⟨r⟩ := by
  rw [plainScalar, tokenText_eq_error h]
  rfl

/-- The span of a quoted token and the error for a missing quote; `rest` follows the opening one. -/
def quotedExtent (start : ℕ) (quote : Char) (rest : List Char) : Span × List Error :=
  match beforeClosingQuote? quote rest with
  | some n => (.withLength start (n + 2), [])
  | none => (.withLength start (rest.length + 1),
      [⟨.unterminatedString, .withLength start (rest.length + 1)⟩])

variable {q : Char} {rest : List Char}

theorem quotedExtent_within (h : Stretch s start (q :: rest)) (hq : IsAsciiOctet q) :
    ∃ n ≤ rest.length, (quotedExtent start q rest).1 = .withLength start (n + 1) ∧
      isBoundary s (start + (n + 1)) = true ∧
      ∀ e ∈ (quotedExtent start q rest).2, e.span.Fits s := by
  unfold quotedExtent
  rcases hn : beforeClosingQuote? q rest with _ | n
  · refine ⟨rest.length, le_rfl, rfl, h.stop, fun e he => ?_⟩
    obtain rfl := List.mem_singleton.1 he
    exact Span.fits_withLength h.start h.stop
  · have hclose : (q :: rest)[n + 1]? = some q := by
      rw [List.getElem?_cons_succ]
      exact getElem?_beforeClosingQuote hn
    exact ⟨n + 1, (List.getElem?_eq_some_iff.1 (getElem?_beforeClosingQuote hn)).1, rfl,
      h.isBoundary (.after hclose hq), fun e he => absurd he List.not_mem_nil⟩

@[simp] theorem quotedExtent_shade (hq : IsMark q) (start : ℕ) (rest : List Char) :
    quotedExtent start q (rest.map shade) = quotedExtent start q rest := by
  rw [quotedExtent, beforeClosingQuote_shade hq, List.length_map, quotedExtent]

/-- A quoted scalar has the span of its token, and takes that many octets. -/
theorem quotedScalar_eq_ok (h : Stretch s start (q :: rest)) (hq : IsAsciiOctet q) :
    ∃ t, quotedScalar s start (q :: rest) = .ok t ∧ t.value.span = (quotedExtent start q rest).1 ∧
      t.used = (quotedExtent start q rest).1.length ∧
      t.errors = (quotedExtent start q rest).2 := by
  have hopen : isBoundary s (start + 1) = true := h.isBoundary (.after (n := 0) rfl hq)
  unfold quotedScalar quotedExtent
  simp only [List.headD_cons, List.tail_cons, List.length_cons]
  rcases hn : beforeClosingQuote? q rest with _ | n
  · have hinner : Span.Fits s ⟨start + 1, max (start + (rest.length + 1)) (start + 1)⟩ := by
      rw [Nat.max_eq_left (by omega)]
      exact ⟨by simp only; omega, hopen, h.stop⟩
    have htoken : Span.Fits s ⟨start, start + (rest.length + 1)⟩ :=
      Span.fits_withLength h.start h.stop
    obtain ⟨text, htext⟩ := exists_tokenText hinner
    obtain ⟨source, hsource⟩ := exists_tokenText htoken
    simp only [htext, hsource]
    refine ⟨_, rfl, ?_, rfl, rfl⟩
    by_cases hd : q = '"' <;> simp only [hd, if_true, if_false] <;> rfl
  · have hclose : (q :: rest)[n + 1]? = some q := by
      rw [List.getElem?_cons_succ]
      exact getElem?_beforeClosingQuote hn
    have hinner : Span.Fits s (.withLength (start + 1) n) := by
      refine Span.fits_withLength hopen ?_
      rw [Nat.add_right_comm]
      exact h.isBoundary (.before hclose hq)
    have htoken : Span.Fits s (.withLength start (n + 2)) :=
      Span.fits_withLength h.start (h.isBoundary (.after hclose hq))
    obtain ⟨text, htext⟩ := exists_tokenText hinner
    obtain ⟨source, hsource⟩ := exists_tokenText htoken
    simp only [htext, hsource]
    refine ⟨_, rfl, ?_, rfl, rfl⟩
    by_cases hd : q = '"' <;> simp only [hd, if_true, if_false]

/-- Two scalars of the same extent. -/
structure Alike (t t' : Taken Scalar) : Prop where
  used : t'.used = t.used
  span : t'.value.span = t.value.span
  errors : t'.errors = t.errors

theorem quotedScalar_both (h : Stretch s start (q :: rest)) (hq : IsMark q) :
    Both (fun t t' => (t.Within s start (q :: rest) (fun x => [x.span]) ∧ t.used ≠ 0) ∧ Alike t t')
      (quotedScalar s start (q :: rest))
      (quotedScalar (shadow s) start ((q :: rest).map shade)) := by
  have h' := h.shadow
  rw [List.map_cons, (shade_eq_iff hq).2 rfl] at h' ⊢
  obtain ⟨n, hn, hspan, hb, herrors⟩ := quotedExtent_within h hq.1
  obtain ⟨t, ht, hvalue, hused, herr⟩ := quotedScalar_eq_ok h hq.1
  obtain ⟨t', ht', hvalue', hused', herr'⟩ := quotedScalar_eq_ok h' hq.1
  rw [quotedExtent_shade hq] at hvalue' hused' herr'
  refine ⟨t, t', ht, ht', ⟨⟨⟨fun r hr => ?_, herr ▸ herrors⟩, ?_, ?_⟩, ?_⟩,
    hused'.trans hused.symm, hvalue'.trans hvalue.symm, herr'.trans herr.symm⟩
  all_goals rw [hspan] at hvalue hused
  · rw [List.mem_singleton.1 hr, hvalue]
    exact Span.fits_withLength h.start hb
  · rw [hused, Span.length_withLength, List.length_cons]; omega
  · rw [hused, Span.length_withLength]; exact hb
  · rw [hused, Span.length_withLength]; omega

theorem exists_quote_of_head (h : (cs.head?.any fun q => q == '"' || q == '\'') = true) :
    ∃ q rest, cs = q :: rest ∧ IsMark q := by
  rcases cs with _ | ⟨q, rest⟩
  · exact absurd h (by simp)
  · simp only [List.head?_cons, Option.any_some, Bool.or_eq_true, beq_iff_eq] at h
    exact ⟨q, rest, rfl, by rcases h with rfl | rfl <;> decide⟩

/-- What follows a complete value is in error up to the end of the octets. -/
theorem trailingErrors_fit (h : Stretch s start cs) :
    ∀ e ∈ trailingErrors start cs, e.span.Fits s := by
  intro e he
  unfold trailingErrors at he
  dsimp only at he
  split_ifs at he
  · exact absurd he List.not_mem_nil
  · obtain rfl := List.mem_singleton.1 he
    refine ⟨?_, h.isBoundary isSeam_blanks, h.stop⟩
    have hle : blanks cs ≤ cs.length := isSeam_blanks.le_length
    simp only; omega

theorem duplicateErrors_fit {seen : List String} {key : Scalar} (h : key.span.Fits s) :
    ∀ e ∈ duplicateErrors seen key, e.span.Fits s := by
  intro e he
  unfold duplicateErrors at he
  split_ifs at he
  · obtain rfl := List.mem_singleton.1 he
    exact h
  · exact absurd he List.not_mem_nil

end Polyglot.Data
