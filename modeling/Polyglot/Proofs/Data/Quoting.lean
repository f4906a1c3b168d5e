import Polyglot.Proofs.Data.Entry

/-!
# Quoting texts

The literal of a text can stand anywhere: it holds no character that ends a line or begins a tag, and the
only bare quotes are its own (`Value.literal_text`). What stands between them is the text again. A text
without line feeds can also be written with doubled single quotes, and both ways it is read back.
-/

namespace Polyglot.Data

open Text Typed

variable {q : Char} {ds body : List Char} {s inner : String}

/-! ## Bare quotes -/

/-- A quote behind these characters is bare: an even number of backslashes stands in front of it. -/
def LeavesBare (before : List Char) : Prop :=
  ∃ front n, before = front ++ List.replicate (2 * n) '\\' ∧ front.getLast? ≠ some '\\'

theorem leavesBare_escape {d : Char} (h : LeavesBare ds) : LeavesBare ('\\' :: d :: ds) := by
  obtain ⟨front, n, rfl, hfront⟩ := h
  rcases front with _ | ⟨e, front⟩
  · by_cases hd : d = '\\'
    · exact ⟨[], n + 1, by rw [hd, Nat.mul_succ, List.replicate_succ, List.replicate_succ]; rfl, hfront⟩
    · exact ⟨['\\', d], n, rfl, by simpa using hd⟩
  · refine ⟨'\\' :: d :: e :: front, n, rfl, ?_⟩
    rw [List.getLast?_cons_cons, List.getLast?_cons_cons]
    exact hfront

/-- Behind shielded characters the next quote is bare. -/
theorem leavesBare_of_isShielded (h : IsShielded ds) : LeavesBare ds := by
  induction h with
  | nil => exact ⟨[], 0, rfl, nofun⟩
  | @plain d ds _ hbackslash _ ih =>
    obtain ⟨front, n, rfl, hfront⟩ := ih
    refine ⟨d :: front, n, rfl, ?_⟩
    rcases front with _ | ⟨e, front⟩
    · simpa using hbackslash
    · rw [List.getLast?_cons_cons]
      exact hfront
  | escape _ ih => exact leavesBare_escape ih

/-- No quote among shielded characters is bare. -/
theorem not_leavesBare_of_isShielded (h : IsShielded ds) :
    ∀ before after, ds = before ++ '"' :: after → ¬ LeavesBare before := by
  induction h with
  | nil =>
    intro before after heq
    exact absurd heq.symm (List.append_ne_nil_of_right_ne_nil _ (List.cons_ne_nil _ _))
  | @plain d ds hquote hbackslash _ ih =>
    rintro before after heq ⟨front, n, rfl, hfront⟩
    rcases front with _ | ⟨e, front⟩
    · rcases n with _ | n
      · exact hquote (List.cons.inj heq).1
      · exact hbackslash (List.cons.inj heq).1
    · refine ih _ after (List.cons.inj heq).2 ⟨front, n, rfl, fun hlast => hfront ?_⟩
      rw [List.getLast?_cons, hlast]
      rfl
  | @escape d ds _ ih =>
    rintro before after heq ⟨front, n, rfl, hfront⟩
    rcases front with _ | ⟨e, _ | ⟨e', front⟩⟩
    · rcases n with _ | n
      · cases heq
      · rw [Nat.mul_succ, List.replicate_succ, List.replicate_succ] at heq
        exact ih _ after (List.cons.inj (List.cons.inj heq).2).2 ⟨[], n, rfl, nofun⟩
    · exact hfront (congrArg some (List.cons.inj heq).1.symm)
    · refine ih _ after (List.cons.inj (List.cons.inj heq).2).2
        ⟨front, n, rfl, fun hlast => hfront ?_⟩
      rw [List.getLast?_cons_cons, List.getLast?_cons, hlast]
      rfl

theorem isShielded_of_isStringBody (h : IsStringBody body) : IsShielded body := by
  induction h with
  | nil => exact .nil
  | plain hc _ ih => exact .plain (fun h => hc (by simp [h])) (fun h => hc (by simp [h])) ih
  | escape _ _ ih => exact .escape ih
  | @code ds cs _ hhex _ ih =>
    have hds {d : Char} (hd : isHexDigit d = false) : d ∉ ds := fun hmem => by
      rw [List.all_eq_true.1 hhex d hmem] at hd
      cases hd
    exact .escape ((isShielded_of_notMem (hds (by decide)) (hds (by decide))).append ih)

/-! ## Characters of literals -/

/-- The character is no control character. -/
def isPrintable (c : Char) : Bool := 0x20 ≤ c.toNat

/-- The character ends no line and begins no tag. -/
def isSafe (c : Char) : Bool := c != '<' && c != '\u2028' && c != '\u2029' && isPrintable c

theorem all_quoteChar (c : Char) : (quoteChar c).all isPrintable = true := by
  have hhex : ∀ n < 0x20, (hexDigits 4 n).all isPrintable = true := by decide
  unfold quoteChar
  split
  iterate 7 decide
  split_ifs with hcontrol
  · exact hhex _ hcontrol
  · rw [List.all_cons, isPrintable, decide_eq_true (Nat.le_of_not_lt hcontrol)]
    rfl

theorem all_quote (s : String) : (quote s).toList.all isPrintable = true := by
  have hbody : (quoteBody s).all isPrintable = true := by
    rw [quoteBody, List.all_flatMap, List.all_eq_true]
    exact fun c _ => all_quoteChar c
  rw [toList_quote, List.all_cons, List.all_append, hbody]
  decide

theorem all_shieldChar {c : Char} (hc : isPrintable c = true) : (shieldChar c).all isSafe = true := by
  unfold shieldChar
  split
  iterate 3 decide
  next hopen hline hparagraph => simpa [isSafe, hc] using ⟨⟨hopen, hline⟩, hparagraph⟩

theorem all_quoteSafe (s : String) : (quoteSafe s).toList.all isSafe = true := by
  rw [quoteSafe, String.toList_ofList, List.all_flatMap, List.all_eq_true]
  exact fun c hc => all_shieldChar (List.all_eq_true.1 (all_quote s) c hc)

/-! ## Single quotes -/

def doubleChar (c : Char) : List Char := if c = '\'' then ['\'', '\''] else [c]

/-- The text in single quotes, each of its own doubled. -/
def singleQuote (s : String) : String := enclosed '\'' (String.ofList (s.toList.flatMap doubleChar))

theorem undoubleList_doubleChar (c : Char) (cs : List Char) :
    undoubleList (doubleChar c ++ cs) = c :: undoubleList cs := by
  unfold doubleChar
  split_ifs with hc
  · rw [hc]
    rfl
  · rw [List.singleton_append, undoubleList]
    exact fun _ h => absurd h hc

theorem undoubleList_flatMap (cs : List Char) : undoubleList (cs.flatMap doubleChar) = cs := by
  induction cs with
  | nil => rfl
  | cons c cs ih => rw [List.flatMap_cons, undoubleList_doubleChar, ih]

/-- Single quotes stand in pairs. -/
inductive IsDoubled : List Char → Prop
  | nil : IsDoubled []
  | plain {d : Char} {ds : List Char} : d ≠ '\'' → IsDoubled ds → IsDoubled (d :: ds)
  | pair {ds : List Char} : IsDoubled ds → IsDoubled ('\'' :: '\'' :: ds)

theorem IsDoubled.of_notMem (h : '\'' ∉ ds) (hbody : IsDoubled body) : IsDoubled (ds ++ body) := by
  induction ds with
  | nil => exact hbody
  | cons d ds ih =>
    obtain ⟨hd, hds⟩ := List.ne_and_not_mem_of_not_mem_cons h
    exact .plain hd.symm (ih hds)

theorem isDoubled_octets (cs : List Char) : IsDoubled (octets (String.ofList (cs.flatMap doubleChar))) := by
  induction cs with
  | nil => exact .nil
  | cons c cs ih =>
    rw [List.flatMap_cons, doubleChar]
    split_ifs with hc
    · show IsDoubled (octets (String.ofList ('\'' :: '\'' :: cs.flatMap doubleChar)))
      rw [octets_cons, octets_cons, octets_singleton (by decide)]
      exact ih.pair
    · rw [List.singleton_append, octets_cons]
      refine .of_notMem (fun hmem => ?_) ih
      have hmem := mem_toList_of_mem_octets (by decide) hmem
      rw [String.toList_singleton, List.mem_singleton] at hmem
      exact hc hmem.symm

/-- The single quote behind pairs of them closes, if it is the last. -/
theorem beforeClosingQuote?_doubled (h : IsDoubled ds) :
    beforeClosingQuote? '\'' (ds ++ ['\'']) = some ds.length := by
  induction h with
  | nil => rfl
  | @plain d ds hquote _ ih =>
    obtain ⟨e, more, hmore⟩ := List.exists_cons_of_ne_nil (l := ds ++ ['\'']) (by simp)
    rw [List.cons_append, hmore, beforeClosingQuote?, if_neg (by simp), if_neg hquote, ← hmore, ih]
    rfl
  | @pair ds _ ih =>
    rw [List.cons_append, List.cons_append, beforeClosingQuote?, if_neg (by simp), if_pos rfl,
      if_pos ⟨rfl, rfl⟩, ih]
    rfl

/-! ## Reading back -/

/-- A text between quotes behind `k: ` is read. -/
theorem ofText_enclosed (hq : q = '"' ∨ q = '\'')
    (hclose : beforeClosingQuote? q (octets inner ++ [q]) = some (size inner))
    (hfeed : '\n' ∉ octets inner) :
    ∃ d x, Document.ofText ("k: " ++ enclosed q inner) = .ok d ∧ d.IsPair "k" x ∧
      x.value = .text (readQuoted q inner) := by
  have hascii : IsAsciiOctet q := by
    rcases hq with rfl | rfl <;> decide
  have hkey : IsPlainKey "k" := ⟨⟨by decide, by decide, by decide⟩, by decide⟩
  have hoctets := octets_enclosed hascii inner
  have hfits : FitsLine (octets (enclosed q inner)) := by
    rw [hoctets]
    refine ⟨?_, fun d hd => ?_, fun d hd => ?_⟩
    · simp only [List.mem_cons, List.mem_append, List.not_mem_nil, or_false, not_or]
      rcases hq with rfl | rfl <;> exact ⟨by decide, hfeed, by decide⟩
    · obtain rfl := Option.some.inj hd
      rcases hq with rfl | rfl <;> decide
    · rw [← List.cons_append, List.getLast?_append] at hd
      obtain rfl := Option.some.inj hd
      rcases hq with rfl | rfl <;> decide
  have hrow : joinRows [.entry "k" (enclosed q inner)] = "k: " ++ enclosed q inner := by
    refine String.toList_injective ?_
    simp [joinRows, Row.entry, Row.text]
  have hstretch : Stretch ("k: " ++ enclosed q inner) 3 (octets (enclosed q inner)) :=
    (stretch_octets _).right
  obtain ⟨x, hx, hvalue⟩ := quotedScalar_enclosed hascii hclose hstretch
  rw [List.append_nil] at hx
  have hdrop : (octets (enclosed q inner)).drop (size (enclosed q inner)) = [] :=
    List.drop_eq_nil_of_le (length_octets _).le
  have hhead : (octets (enclosed q inner)).head? = some '"' ∨
      (octets (enclosed q inner)).head? = some '\'' := by
    rw [hoctets]
    exact hq.imp (congrArg some) (congrArg some)
  have hbegins : (octets (enclosed q inner)).head?.any beginsContent = true := by
    rcases hhead with h | h <;> rw [h] <;> rfl
  have hinline : inlineValue (joinRows [.entry "k" (enclosed q inner)]) 3
      (octets (enclosed q inner)) 0 [] = .ok ⟨.scalar x, 0, []⟩ := by
    rw [hrow, inlineValue_eq, if_pos hhead, hx]
    simp only [bind, Except.bind, pure, Except.pure, hdrop, trailingErrors_nil, List.append_nil]
  obtain ⟨d, hd, hpair⟩ := ofText_entry hkey hfits hbegins (List.forall_mem_nil _) hinline
    (List.forall_mem_nil _)
  exact ⟨d, x, hrow ▸ hd, hpair, hvalue⟩

theorem ofText_singleQuote (hfeed : '\n' ∉ s.toList) :
    ∃ d x, Document.ofText ("k: " ++ singleQuote s) = .ok d ∧ d.IsPair "k" x ∧ x.value = .text s := by
  have hclose := beforeClosingQuote?_doubled (isDoubled_octets s.toList)
  have hdoubled : '\n' ∉ s.toList.flatMap doubleChar := fun hmem => by
    obtain ⟨c, hc, hmem⟩ := List.mem_flatMap.1 hmem
    unfold doubleChar at hmem
    split_ifs at hmem
    · simp at hmem
    · exact hfeed (List.mem_singleton.1 hmem ▸ hc)
  have hread : readQuoted '\'' (String.ofList (s.toList.flatMap doubleChar)) = s := by
    rw [readQuoted, if_neg (by decide), undouble, String.toList_ofList, undoubleList_flatMap,
      String.ofList_toList]
  have hread := hread ▸ ofText_enclosed (.inr rfl) (length_octets _ ▸ hclose)
    (fun hmem => hdoubled (by simpa using mem_toList_of_mem_octets (by decide) hmem))
  exact hread

theorem ofText_quote (s : String) :
    ∃ d x, Document.ofText ("k: " ++ quote s) = .ok d ∧ d.IsPair "k" x ∧ x.value = .text s := by
  have hbody := isStringBody_quoteBody s
  have hclose := beforeClosingQuote?_shielded (isShielded_octets hbody) []
  have hread : readQuoted '"' (String.ofList (quoteBody s)) = s := by
    rw [readQuoted, if_pos rfl, unescape, String.toList_ofList, unescapeList_quoteBody,
      String.ofList_toList]
  have hread := hread ▸ ofText_enclosed (.inl rfl) (length_octets _ ▸ hclose)
    (fun hmem => feed_notMem_of_isStringBody hbody
      (by simpa using mem_toList_of_mem_octets (by decide) hmem))
  rw [quote_eq, quoted_eq]
  exact hread

/-- **Quoting.** The literal of a text holds safe characters only, no quote between its own is bare, and what
stands between them, as in its key, is the text. In single and in double quotes a text without line feeds is
read back, so both give the same literal. -/
theorem Value.text_quoting (s : String) :
    (Value.text s).literal.toList.all isSafe = true ∧
    (∃ body, (Value.text s).literal = enclosed '"' body ∧ unescape body = s ∧ LeavesBare body.toList ∧
      ∀ before after, body.toList = before ++ '"' :: after → ¬ LeavesBare before) ∧
    (∃ body, (Value.text s).key = enclosed '"' body ∧ unescape body = s) ∧
    ('\n' ∉ s.toList → ∃ d e x y,
      Document.ofText ("k: " ++ singleQuote s) = .ok d ∧ d.IsPair "k" x ∧ x.value = .text s ∧
      Document.ofText ("k: " ++ (Value.text s).key) = .ok e ∧ e.IsPair "k" y ∧ y.value = .text s ∧
      x.literal = y.literal) := by
  have hshielded := isShielded_of_isStringBody (isStringBody_quoteSafeBody s)
  refine ⟨all_quoteSafe s, ⟨String.ofList (quoteSafeBody s), ?_, ?_, ?_, ?_⟩,
    ⟨String.ofList (quoteBody s), ?_, ?_⟩, fun hfeed => ?_⟩
  · rw [literal, quoteSafe_eq, quoted_eq]
  · rw [unescape, String.toList_ofList, unescapeList_quoteSafeBody, String.ofList_toList]
  · rw [String.toList_ofList]
    exact leavesBare_of_isShielded hshielded
  · rw [String.toList_ofList]
    exact not_leavesBare_of_isShielded hshielded
  · rw [key, quote_eq, quoted_eq]
  · rw [unescape, String.toList_ofList, unescapeList_quoteBody, String.ofList_toList]
  · obtain ⟨d, x, hd, hpair, hx⟩ := ofText_singleQuote hfeed
    obtain ⟨e, y, he, hpair', hy⟩ := ofText_quote s
    exact ⟨d, e, x, y, hd, hpair, hx, he, hpair', hy, by rw [Scalar.literal, Scalar.literal, hx, hy]⟩

/-- Both quotes, what looks like escapes, a tag, a line separator, and control characters. -/
def entangledText : String := "it''s \\\"<\u2028\\u003C\\\t\r\x00"

theorem Value.text_quoting_entangledText : '\n' ∉ entangledText.toList ∧ ∃ d e x y,
    Document.ofText ("k: " ++ singleQuote entangledText) = .ok d ∧ d.IsPair "k" x ∧
    x.value = .text entangledText ∧
    Document.ofText ("k: " ++ (Value.text entangledText).key) = .ok e ∧ e.IsPair "k" y ∧
    y.value = .text entangledText ∧ x.literal = y.literal :=
  have hfeed : '\n' ∉ entangledText.toList := by simp [entangledText]
  ⟨hfeed, (Value.text_quoting entangledText).2.2.2 hfeed⟩

example : (Value.text entangledText).literal =
    "\"it''s \\\\\\\"\\u003C\\u2028\\\\u003C\\\\\\t\\r\\u0000\"" := by
  decide

end Polyglot.Data
