import Mathlib
import Polyglot.Markup.Node

/-!
# Streams of tokens

The tokens of a text, in the order in which they are reported, cover it piece by piece. `Stream` is that
order as a grammar: a site tells how far the tokens before it reach, and whether they end inside a start
tag or at the content of a raw text element. The machine keeps to the grammar from every mode that
agrees with a site (`Mode.At.run`).
-/

namespace Polyglot.Markup

/-- The octets that a span covers. -/
def octetsAt (cs : List Char) (r : Span) : List Char := (cs.drop r.start).take r.length

/-- The octets at `p` begin the end tag of `name`. -/
def EndTagAt (cs name : List Char) (p : ℕ) : Prop :=
  ∃ rest, cs.drop p = '<' :: rest ∧ beginsEndTag name rest = true

/-! ## The grammar -/

/-- Where a stream goes on. -/
inductive Site where
  | outside (i : ℕ)
  /-- In the start tag of an element with this name. -/
  | tag (name : List Char) (i : ℕ)
  /-- Where the content of a raw text element with this name begins. -/
  | raw (name : List Char) (i : ℕ)
  /-- Where that content ends. -/
  | rawEnd (name : List Char) (i : ℕ)

/-- The site after the start tag of an element with this name. -/
def Site.content (name : List Char) (i : ℕ) : Site :=
  if isRawTextName name then .raw name i else .outside i

/-- The site is in the content of a raw text element, or at its end. -/
def Site.isRaw : Site → Bool
  | .raw .. | .rawEnd .. => true
  | .outside _ | .tag .. => false

/-- The span of a token that becomes a node without children. -/
def Token.leaf? : Token → Option Span
  | .text r | .expression r | .comment r | .doctype r => some r
  | _ => none

/-- The tokens that may be reported from a site on. -/
inductive Stream (cs : List Char) : Site → List Token → Prop
  | finish : Stream cs (.outside cs.length) [.finish]
  | finishTag {name i} : i ≤ cs.length → Stream cs (.tag name i) [.finish]
  | finishRaw {name} : Stream cs (.rawEnd name cs.length) [.finish]
  /-- What the end of the text cuts short; raw text ends with it as well as with an end tag. -/
  | error {p e ts} : p.isRaw = false → e.offset = cs.length → Stream cs p ts →
      Stream cs p (.error e :: ts)
  | leaf {t i j ts} : t.leaf? = some ⟨i, j⟩ → i < j → j ≤ cs.length → Stream cs (.outside j) ts →
      Stream cs (.outside i) (t :: ts)
  | openName {i j ts} : cs[i]? = some '<' → i < j → j ≤ cs.length →
      Stream cs (.tag (octetsAt cs ⟨i + 1, j⟩) j) ts →
      Stream cs (.outside i) (.openName ⟨i + 1, j⟩ :: ts)
  | attributeName {name i a b ts} : i ≤ a → a < b → b ≤ cs.length → Stream cs (.tag name b) ts →
      Stream cs (.tag name i) (.attributeName ⟨a, b⟩ :: ts)
  | attributeValue {name i kind r ts} : i ≤ (Value.mk kind r).rawSpan.start → r.start ≤ r.stop →
      (Value.mk kind r).rawSpan.stop ≤ cs.length →
      Stream cs (.tag name (Value.mk kind r).rawSpan.stop) ts →
      Stream cs (.tag name i) (.attributeValue kind r :: ts)
  | shorthand {name i a b ts} : i ≤ a → a + 1 < b → b ≤ cs.length → Stream cs (.tag name b) ts →
      Stream cs (.tag name i) (.shorthand ⟨a, b⟩ :: ts)
  | openEnd {name i j ts} : i ≤ j → j < cs.length → Stream cs (.content name (j + 1)) ts →
      Stream cs (.tag name i) (.openEnd j :: ts)
  | selfClose {name i j ts} : i ≤ j → j < cs.length → Stream cs (.outside (j + 1)) ts →
      Stream cs (.tag name i) (.selfClose j :: ts)
  | closeTag {i name stop ts} : i + 2 ≤ name.start → name.start ≤ name.stop → name.stop ≤ stop →
      stop ≤ cs.length → Stream cs (.outside (min (stop + 1) cs.length)) ts →
      Stream cs (.outside i) (.closeTag i name stop :: ts)
  /-- The text of a raw text element, up to the first octets that begin its end tag. -/
  | rawText {name i j ts} : isRawTextName name = true → i ≤ j → j ≤ cs.length →
      (∀ p, i ≤ p → p < j → ¬ EndTagAt cs name p) → (j = cs.length ∨ EndTagAt cs name j) →
      Stream cs (.rawEnd name j) ts → Stream cs (.raw name i) (pendingText i j ++ ts)
  /-- The end tag there, whose name goes on behind that of the element if a slash does. -/
  | rawClose {name i j stop ts} : isRawTextName name = true → EndTagAt cs name i →
      (j = i + 2 + name.length ∨ cs[i + 2 + name.length]? = some '/') →
      i + 2 ≤ j → j ≤ stop → stop ≤ cs.length → Stream cs (.outside (min (stop + 1) cs.length)) ts →
      Stream cs (.rawEnd name i) (.closeTag i ⟨i + 2, j⟩ stop :: ts)

/-! ## Modes and sites -/

/-- In this mode at offset `i` the machine has reported all up to the site. -/
inductive Mode.At (cs : List Char) : Mode → ℕ → Site → Prop
  | text {i start} : start ≤ i → At cs (.text start) i (.outside start)
  | textExpression {i start braces} : start < i →
      At cs (.textExpression start braces) i (.outside start)
  | beforeName {lt} : cs[lt]? = some '<' → At cs (.beforeName lt) (lt + 1) (.outside lt)
  | openName {i lt spelled} : cs[lt]? = some '<' → lt < i →
      spelled.reverse = octetsAt cs ⟨lt + 1, i⟩ →
      At cs (.openName (lt + 1) spelled) i (.outside lt)
  | beforeCloseName {i lt} : lt + 2 ≤ i → At cs (.beforeCloseName lt) i (.outside lt)
  | closeName {i lt start} : lt + 2 ≤ start → start ≤ i →
      At cs (.closeName lt start) i (.outside lt)
  | afterCloseName {i lt name} : lt + 2 ≤ name.start → name.start ≤ name.stop → name.stop ≤ i →
      At cs (.afterCloseName lt name) i (.outside lt)
  | beforeDeclaration {i lt} : lt < i → At cs (.beforeDeclaration lt) i (.outside lt)
  | declaration {i lt} : lt < i → At cs (.declaration lt) i (.outside lt)
  | beforeComment {i lt} : lt < i → At cs (.beforeComment lt) i (.outside lt)
  | comment {i lt} : lt < i → At cs (.comment lt) i (.outside lt)
  | selfClosing {i j name} : j ≤ i → At cs (.selfClosing name) i (.tag name j)
  | beforeAttribute {i j name} : j ≤ i → At cs (.beforeAttribute name) i (.tag name j)
  | attributeName {i j name start} : j ≤ start → start < i →
      At cs (.attributeName name start) i (.tag name j)
  | afterAttributeName {i j name} : j ≤ i → At cs (.afterAttributeName name) i (.tag name j)
  | beforeValue {i j name} : j ≤ i → At cs (.beforeValue name) i (.tag name j)
  | doubleQuoted {i j name start} : j < start → start ≤ i →
      At cs (.doubleQuoted name start) i (.tag name j)
  | singleQuoted {i j name start} : j < start → start ≤ i →
      At cs (.singleQuoted name start) i (.tag name j)
  | unquoted {i j name start} : j ≤ start → start ≤ i →
      At cs (.unquoted name start) i (.tag name j)
  | attributeExpression {i j name start isShorthand braces} : j ≤ start → start < i →
      At cs (.attributeExpression name start isShorthand braces) i (.tag name j)
  | rawText {i name start} : isRawTextName name = true → start ≤ i →
      (∀ p, start ≤ p → p < i → ¬ EndTagAt cs name p) →
      At cs (.rawText name start) i (.raw name start)
  | beforeEnd {name lt} : isRawTextName name = true → EndTagAt cs name lt →
      At cs (.beforeName lt) (lt + 1) (.rawEnd name lt)
  | beforeEndName {name lt} : isRawTextName name = true → EndTagAt cs name lt →
      At cs (.beforeCloseName lt) (lt + 2) (.rawEnd name lt)
  | endName {i name lt} : isRawTextName name = true → EndTagAt cs name lt → lt + 2 ≤ i →
      (i ≤ lt + 2 + name.length ∨ cs[lt + 2 + name.length]? = some '/') →
      At cs (.closeName lt (lt + 2)) i (.rawEnd name lt)
  | afterEndName {i j name lt} : isRawTextName name = true → EndTagAt cs name lt → lt + 2 ≤ j →
      j ≤ i → (j = lt + 2 + name.length ∨ cs[lt + 2 + name.length]? = some '/') →
      At cs (.afterCloseName lt ⟨lt + 2, j⟩) i (.rawEnd name lt)

variable {cs rest name : List Char} {c : Char} {i j start : ℕ} {ts : List Token} {p : Site}
  {mode : Mode}

/-! ## Octets -/

theorem getElem?_of_drop (h : cs.drop i = c :: rest) : cs[i]? = some c := by
  rw [← Nat.add_zero i, ← List.getElem?_drop, h]
  rfl

theorem drop_succ_of_drop (h : cs.drop i = c :: rest) : cs.drop (i + 1) = rest := by
  rw [← List.drop_drop, h]
  rfl

theorem lt_length_of_drop (h : cs.drop i = c :: rest) : i < cs.length :=
  (List.getElem?_eq_some_iff.1 (getElem?_of_drop h)).1

theorem octetsAt_succ (hle : start ≤ i) (h : cs.drop i = c :: rest) :
    octetsAt cs ⟨start, i + 1⟩ = octetsAt cs ⟨start, i⟩ ++ [c] := by
  unfold octetsAt Span.length
  dsimp only
  rw [Nat.succ_sub hle, List.take_add_one, List.getElem?_drop, Nat.add_sub_cancel' hle,
    getElem?_of_drop h]
  rfl

/-- An octet that ends a tag name has no case. -/
theorem toLower_of_endsTagSection (h : endsTagSection c = true) : c.toLower = c := by
  unfold endsTagSection Text.isAsciiBlank at h
  split at h
  all_goals first
    | rfl
    | (rw [Bool.or_false, Bool.or_eq_true, beq_iff_eq, beq_iff_eq] at h
       rcases h with rfl | rfl <;> rfl)

/-- The names of raw text elements have letters only. -/
theorem endsTagSection_of_mem_raw (hname : isRawTextName name = true)
    (hc : c ∈ name.map Char.toLower) : endsTagSection c = false := by
  have hall : (rawTextElements.all fun e =>
      (e.toList.map Char.toLower).all fun c => !endsTagSection c) = true := by decide +kernel
  obtain ⟨e, he, heq⟩ := List.any_eq_true.1 hname
  rw [beq_iff_eq] at heq
  subst heq
  have hletter := List.all_eq_true.1 (List.all_eq_true.1 hall e he) c hc
  rwa [Bool.not_eq_true'] at hletter

namespace EndTagAt

variable {lt k : ℕ}

theorem getElem?_eq (h : EndTagAt cs name lt) : cs[lt]? = some '<' := by
  obtain ⟨rest, hdrop, -⟩ := h
  exact getElem?_of_drop hdrop

/-- The octets after the `</` of an end tag. -/
theorem exists_drop (h : EndTagAt cs name lt) : ∃ after, cs.drop (lt + 1) = '/' :: after ∧
    cs.drop (lt + 2) = after ∧ (after.take name.length).map Char.toLower = name.map Char.toLower ∧
    (after.drop name.length).head?.all endsTagSection = true := by
  obtain ⟨rest, hdrop, hbegins⟩ := h
  have hrest := drop_succ_of_drop hdrop
  unfold beginsEndTag at hbegins
  split at hbegins
  next after =>
    rw [Bool.and_eq_true, beq_iff_eq] at hbegins
    exact ⟨after, hrest, drop_succ_of_drop hrest, hbegins⟩
  next => cases hbegins

theorem lower_eq (h : EndTagAt cs name lt) :
    (octetsAt cs ⟨lt + 2, lt + 2 + name.length⟩).map Char.toLower = name.map Char.toLower := by
  obtain ⟨after, -, hafter, hname, -⟩ := h.exists_drop
  unfold octetsAt Span.length
  dsimp only
  rw [hafter, Nat.add_sub_cancel_left]
  exact hname

theorem le_length (h : EndTagAt cs name lt) : lt + 2 + name.length ≤ cs.length := by
  have hlen := congrArg List.length h.lower_eq
  rw [List.length_map, List.length_map] at hlen
  unfold octetsAt Span.length at hlen
  dsimp only at hlen
  rw [List.length_take, List.length_drop] at hlen
  have hlt := (List.getElem?_eq_some_iff.1 h.getElem?_eq).1
  obtain ⟨after, hslash, -, -, -⟩ := h.exists_drop
  have hslash := lt_length_of_drop hslash
  omega

/-- No octet of the name in an end tag ends the name. -/
theorem endsTagSection_eq (hname : isRawTextName name = true) (h : EndTagAt cs name lt)
    (hk : k < name.length) (hc : cs[lt + 2 + k]? = some c) : endsTagSection c = false := by
  have hlower : c.toLower ∈ name.map Char.toLower := by
    rw [← h.lower_eq]
    refine List.mem_map.2 ⟨c, ?_, rfl⟩
    refine List.mem_iff_getElem?.2 ⟨k, ?_⟩
    unfold octetsAt Span.length
    dsimp only
    rw [Nat.add_sub_cancel_left, List.getElem?_take_of_lt hk, List.getElem?_drop, hc]
  rw [Bool.eq_false_iff]
  intro hends
  have hfalse := endsTagSection_of_mem_raw hname hlower
  rw [toLower_of_endsTagSection hends, hends] at hfalse
  cases hfalse

/-- What stands behind the name in an end tag ends the name. -/
theorem endsTagSection_behind (h : EndTagAt cs name lt) (hc : cs[lt + 2 + name.length]? = some c) :
    endsTagSection c = true := by
  obtain ⟨after, -, hafter, -, hbehind⟩ := h.exists_drop
  rw [List.head?_drop, ← hafter, List.getElem?_drop, hc] at hbehind
  exact hbehind

end EndTagAt

/-! ## Steps -/

theorem Stream.pendingText (hle : i ≤ j) (hlen : j ≤ cs.length) (h : Stream cs (.outside j) ts) :
    Stream cs (.outside i) (pendingText i j ++ ts) := by
  unfold Markup.pendingText
  split_ifs with hlt
  · exact .leaf rfl hlt hlen h
  · obtain rfl : i = j := by omega
    exact h

namespace Mode

/-- The tokens of a step are such as the site allows, if those behind them are such as a site allows that
agrees with the mode after the step. -/
def Reports (cs : List Char) (r : Mode × List Token) (i : ℕ) (p : Site) : Prop :=
  ∀ ts, (∀ q, At cs r.1 i q → Stream cs q ts) → Stream cs p (r.2 ++ ts)

theorem At.reports (h : At cs mode i p) : Reports cs (mode, []) i p := fun _ hts => hts p h

theorem at_afterStartTag : At cs (afterStartTag name i) (i + 1) (.content name (i + 1)) := by
  unfold afterStartTag Site.content
  split_ifs with hname
  · exact .rawText hname le_rfl fun p hp hlt => absurd hlt (Nat.not_lt.2 hp)
  · exact .text le_rfl

theorem stepText_reports (hle : start ≤ i) (hc : cs.drop i = c :: rest) :
    Reports cs (stepText start i c) (i + 1) (.outside start) := by
  have hlen := (lt_length_of_drop hc).le
  unfold stepText
  split_ifs with hlt
  · subst hlt
    exact fun ts hts => .pendingText hle hlen (hts _ (.beforeName (getElem?_of_drop hc)))
  · exact fun ts hts => .pendingText hle hlen (hts _ (.textExpression (Nat.lt_succ_self i)))
  · exact (At.text (Nat.le_succ_of_le hle)).reports

theorem stepAttribute_reports (hle : j ≤ i) (hc : cs.drop i = c :: rest) :
    Reports cs (stepAttribute name i c) (i + 1) (.tag name j) := by
  have hlen := lt_length_of_drop hc
  unfold stepAttribute
  split_ifs
  · exact fun ts hts => .openEnd hle hlen (hts _ at_afterStartTag)
  · exact (At.selfClosing (Nat.le_succ_of_le hle)).reports
  · exact (At.attributeExpression hle (Nat.lt_succ_self i)).reports
  · exact (At.beforeAttribute (Nat.le_succ_of_le hle)).reports
  · exact (At.attributeName hle (Nat.lt_succ_self i)).reports

theorem stepAfterAttributeName_reports (hle : j ≤ i) (hc : cs.drop i = c :: rest) :
    Reports cs (stepAfterAttributeName name i c) (i + 1) (.tag name j) := by
  unfold stepAfterAttributeName
  split_ifs
  · exact (At.beforeValue (Nat.le_succ_of_le hle)).reports
  · exact (At.afterAttributeName (Nat.le_succ_of_le hle)).reports
  · exact stepAttribute_reports hle hc

theorem stepDeclaration_reports {lt : ℕ} (hlt : lt < i) (hc : cs.drop i = c :: rest) :
    Reports cs (stepDeclaration lt i c) (i + 1) (.outside lt) := by
  have hlen := lt_length_of_drop hc
  unfold stepDeclaration
  split_ifs
  · exact fun ts hts => .leaf rfl (Nat.lt_succ_of_lt hlt) hlen (hts _ (.text le_rfl))
  · exact (At.declaration (Nat.lt_succ_of_lt hlt)).reports

/-- The `>` of an end tag. -/
theorem closeTag_reports {lt : ℕ} {tag : Span} (hstart : lt + 2 ≤ tag.start)
    (hle : tag.start ≤ tag.stop) (hi : tag.stop ≤ i) (hlen : i < cs.length) :
    Reports cs (.text (i + 1), [.closeTag lt tag i]) (i + 1) (.outside lt) := by
  intro ts hts
  refine .closeTag hstart hle hi hlen.le ?_
  rw [Nat.min_eq_left hlen]
  exact hts _ (.text le_rfl)

theorem rawClose_reports {lt : ℕ} (hname : isRawTextName name = true) (hat : EndTagAt cs name lt)
    (hor : j = lt + 2 + name.length ∨ cs[lt + 2 + name.length]? = some '/') (hle : lt + 2 ≤ j)
    (hi : j ≤ i) (hlen : i < cs.length) :
    Reports cs (.text (i + 1), [.closeTag lt ⟨lt + 2, j⟩ i]) (i + 1) (.rawEnd name lt) := by
  intro ts hts
  refine .rawClose hname hat hor hle hi hlen.le ?_
  rw [Nat.min_eq_left hlen]
  exact hts _ (.text le_rfl)

theorem octetsAt_self (cs : List Char) (i : ℕ) : octetsAt cs ⟨i, i⟩ = [] := by
  unfold octetsAt Span.length
  dsimp only
  rw [Nat.sub_self, List.take_zero]

/-- Behind a `<`. -/
theorem step_beforeName {lt : ℕ} (hlt : cs[lt]? = some '<') (hc : cs.drop (lt + 1) = c :: rest) :
    Reports cs ((beforeName lt).step (lt + 1) c rest) (lt + 2) (.outside lt) := by
  have hlen := lt_length_of_drop hc
  unfold Mode.step
  dsimp only
  split_ifs
  · exact (At.beforeDeclaration (by omega)).reports
  · refine (At.openName hlt (by omega) ?_).reports
    rw [octetsAt_succ le_rfl hc, octetsAt_self]
    rfl
  · refine fun ts hts => .openName hlt (Nat.lt_succ_self lt) hlen.le (.openEnd le_rfl hlen ?_)
    rw [octetsAt_self]
    have hcontent : At cs (afterStartTag [] (lt + 1)) (lt + 2) (.content [] (lt + 2)) :=
      at_afterStartTag
    exact hts _ hcontent
  · exact (At.beforeCloseName le_rfl).reports
  · exact stepText_reports (Nat.le_succ lt) hc

/-- In the content of a raw text element. -/
theorem step_rawText (hname : isRawTextName name = true) (hle : start ≤ i)
    (hnone : ∀ p, start ≤ p → p < i → ¬ EndTagAt cs name p) (hc : cs.drop i = c :: rest) :
    Reports cs ((rawText name start).step i c rest) (i + 1) (.raw name start) := by
  unfold Mode.step
  dsimp only
  split_ifs with hend
  · obtain ⟨rfl, hbegins⟩ := hend
    have hat : EndTagAt cs name i := ⟨rest, hc, hbegins⟩
    exact fun ts hts => .rawText hname hle (lt_length_of_drop hc).le hnone (.inr hat)
      (hts _ (.beforeEnd hname hat))
  · refine (At.rawText hname (Nat.le_succ_of_le hle) fun p hp hlt hat => ?_).reports
    rcases Nat.lt_succ_iff_lt_or_eq.1 hlt with hlt | rfl
    · exact hnone p hp hlt hat
    · obtain ⟨after, hdrop, hbegins⟩ := hat
      rw [hc] at hdrop
      cases hdrop
      exact hend ⟨rfl, hbegins⟩

/-- Behind the `</` that ends the text of a raw text element. -/
theorem step_beforeEndName {lt : ℕ} (hname : isRawTextName name = true) (hat : EndTagAt cs name lt)
    (hc : cs.drop (lt + 2) = c :: rest) :
    Reports cs ((beforeCloseName lt).step (lt + 2) c rest) (lt + 3) (.rawEnd name lt) := by
  have hpos : 0 < name.length := by
    rcases name with _ | _
    · cases hname
    · exact Nat.succ_pos _
  have hends := hat.endsTagSection_eq hname hpos (getElem?_of_drop hc)
  unfold endsTagSection at hends
  rw [Bool.or_eq_false_iff, Bool.or_eq_false_iff, beq_eq_false_iff_ne, beq_eq_false_iff_ne] at hends
  unfold Mode.step
  dsimp only
  rw [if_neg (by rw [hends.2]; decide), if_neg hends.1.2]
  exact (At.endName hname hat (Nat.le_succ _) (.inl (by omega))).reports

/-- In the name behind that `</`. Inside the name of the element nothing ends it; behind it a slash lets it
go on, and all else ends it. -/
theorem step_endName {lt : ℕ} (hname : isRawTextName name = true) (hat : EndTagAt cs name lt)
    (hle : lt + 2 ≤ i) (hi : i ≤ lt + 2 + name.length ∨ cs[lt + 2 + name.length]? = some '/')
    (hc : cs.drop i = c :: rest) :
    Reports cs ((closeName lt (lt + 2)).step i c rest) (i + 1) (.rawEnd name lt) := by
  have hlen := lt_length_of_drop hc
  have hstop (hends : endsTagSection c = true) :
      i = lt + 2 + name.length ∨ cs[lt + 2 + name.length]? = some '/' := by
    refine hi.imp_left fun hi => hi.eq_of_not_lt fun hlt => ?_
    have hinside := hat.endsTagSection_eq hname (by omega : i - (lt + 2) < name.length)
      (Nat.add_sub_cancel' hle ▸ getElem?_of_drop hc)
    rw [hinside] at hends
    cases hends
  unfold endsTagSection at hstop
  unfold Mode.step
  dsimp only
  split_ifs with hgt hblank
  · refine rawClose_reports hname hat (hstop ?_) hle le_rfl hlen
    rw [hgt]
    rfl
  · refine (At.afterEndName hname hat hle (Nat.le_succ i) (hstop ?_)).reports
    rw [hblank, Bool.or_true]
  · refine (At.endName hname hat (Nat.le_succ_of_le hle) ?_).reports
    rcases hi with hi | hi
    · rcases hi.lt_or_eq with hlt | rfl
      · exact .inl hlt
      · have hbehind := hat.endsTagSection_behind (getElem?_of_drop hc)
        unfold endsTagSection at hbehind
        rw [Bool.or_eq_true, Bool.or_eq_true, beq_iff_eq, beq_iff_eq] at hbehind
        obtain rfl := (hbehind.resolve_right hblank).resolve_right hgt
        exact .inr (getElem?_of_drop hc)
    · exact .inr hi

/-- **Steps.** Each step keeps to the grammar. -/
theorem At.step (h : At cs mode i p) (hc : cs.drop i = c :: rest) :
    Reports cs (mode.step i c rest) (i + 1) p := by
  have hlen := lt_length_of_drop hc
  have hsucc := Nat.lt_succ_self i
  cases h
  case beforeName lt hlt => exact step_beforeName hlt hc
  case rawText name start hname hle hnone => exact step_rawText hname hle hnone hc
  case beforeEndName name lt hname hat => exact step_beforeEndName hname hat hc
  case endName name lt hname hat hle hi => exact step_endName hname hat hle hi hc
  all_goals
    unfold Mode.step
    dsimp only
  case text start hle => exact stepText_reports hle hc
  case textExpression start braces hlt =>
    rcases braces.step? c with _ | braces
    · exact fun ts hts => .leaf rfl (hlt.trans hsucc) hlen (hts _ (.text le_rfl))
    · exact (At.textExpression (hlt.trans hsucc)).reports
  case openName lt spelled hlt hle hname =>
    split_ifs
    · intro ts hts
      refine .openName hlt hle hlen.le ?_
      rw [← hname]
      exact stepAttribute_reports le_rfl hc ts hts
    · refine (At.openName hlt (hle.trans hsucc) ?_).reports
      rw [octetsAt_succ hle hc, List.reverse_cons, hname]
  case beforeCloseName lt hle =>
    split_ifs
    · exact (At.beforeCloseName (hle.trans hsucc.le)).reports
    · exact closeTag_reports hle le_rfl le_rfl hlen
    · exact (At.closeName hle hsucc.le).reports
  case closeName lt start hle hi =>
    split_ifs
    · exact closeTag_reports hle hi le_rfl hlen
    · exact (At.afterCloseName hle hi hsucc.le).reports
    · exact (At.closeName hle (hi.trans hsucc.le)).reports
  case afterCloseName lt name hle hname hi =>
    split_ifs
    · exact closeTag_reports hle hname hi hlen
    · exact (At.afterCloseName hle hname (hi.trans hsucc.le)).reports
  case beforeDeclaration lt hlt =>
    split_ifs
    · exact (At.beforeComment (hlt.trans hsucc)).reports
    · exact stepDeclaration_reports hlt hc
  case declaration lt hlt => exact stepDeclaration_reports hlt hc
  case beforeComment lt hlt =>
    split_ifs
    · exact (At.comment (hlt.trans hsucc)).reports
    · exact stepDeclaration_reports hlt hc
  case comment lt hlt => exact (At.comment (hlt.trans hsucc)).reports
  case selfClosing j name hle =>
    split_ifs
    · exact fun ts hts => .selfClose hle hlen (hts _ (.text le_rfl))
    · exact (At.selfClosing (hle.trans hsucc.le)).reports
    · exact stepAttribute_reports hle hc
  case beforeAttribute j name hle => exact stepAttribute_reports hle hc
  case attributeName j name start hle hlt =>
    split_ifs
    · exact fun ts hts => .attributeName hle hlt hlen.le
        (stepAfterAttributeName_reports le_rfl hc ts hts)
    · exact (At.attributeName hle (hlt.trans hsucc)).reports
  case afterAttributeName j name hle => exact stepAfterAttributeName_reports hle hc
  case beforeValue j name hle =>
    split_ifs
    · exact (At.doubleQuoted (Nat.lt_succ_of_le hle) le_rfl).reports
    · exact (At.singleQuoted (Nat.lt_succ_of_le hle) le_rfl).reports
    · exact (At.attributeExpression hle hsucc).reports
    · exact fun ts hts => .openEnd hle hlen (hts _ at_afterStartTag)
    · exact (At.beforeValue (hle.trans hsucc.le)).reports
    · exact (At.unquoted hle hsucc.le).reports
  case doubleQuoted j name start hlt hle =>
    split_ifs
    · exact fun ts hts => .attributeValue (Nat.le_sub_one_of_lt hlt) hle hlen
        (hts _ (.beforeAttribute le_rfl))
    · exact (At.doubleQuoted hlt (hle.trans hsucc.le)).reports
  case singleQuoted j name start hlt hle =>
    split_ifs
    · exact fun ts hts => .attributeValue (Nat.le_sub_one_of_lt hlt) hle hlen
        (hts _ (.beforeAttribute le_rfl))
    · exact (At.singleQuoted hlt (hle.trans hsucc.le)).reports
  case unquoted j name start hle hlt =>
    split_ifs
    · exact fun ts hts => .attributeValue hle hlt hlen.le (stepAttribute_reports le_rfl hc ts hts)
    · exact (At.unquoted hle (hlt.trans hsucc.le)).reports
  case attributeExpression j name start isShorthand braces hle hlt =>
    rcases braces.step? c with _ | braces
    · cases isShorthand
      · exact fun ts hts => .attributeValue (show j ≤ start + 1 - 1 by omega) hlt hlen
          (hts _ (.beforeAttribute le_rfl))
      · exact fun ts hts => .shorthand hle (Nat.succ_lt_succ hlt) hlen
          (hts _ (.beforeAttribute le_rfl))
    · exact (At.attributeExpression hle (hlt.trans hsucc)).reports
  case beforeEnd name lt hname hat =>
    obtain ⟨after, hslash, -, -, -⟩ := hat.exists_drop
    rw [hslash] at hc
    cases hc
    exact (At.beforeEndName hname hat).reports
  case afterEndName j name lt hname hat hle hj hi =>
    split_ifs
    · exact rawClose_reports hname hat hj hle hi hlen
    · exact (At.afterEndName hname hat hle (hi.trans hsucc.le) hj).reports

/-- The tokens at the end of the text. -/
theorem At.atEnd (h : At cs mode i p) (hi : i = cs.length) :
    Stream cs p (mode.atEnd i ++ [.finish]) := by
  have hle := hi.le
  have hfinish : Stream cs (.outside i) [.finish] := hi ▸ .finish
  have hend : Stream cs (.outside (min (i + 1) cs.length)) [.error ⟨.endInTag, i⟩, .finish] := by
    rw [Nat.min_eq_right (by omega), ← hi]
    exact .error rfl hi hfinish
  cases h
  case text start hs => exact .pendingText hs hle hfinish
  case textExpression start braces hlt => exact .error rfl hi (.leaf rfl hlt hle hfinish)
  case beforeName lt hlt => exact .leaf rfl (Nat.lt_succ_self lt) hle hfinish
  case openName lt spelled hlt hs hname => exact .openName hlt hs hle (.error rfl hi (.finishTag hle))
  case beforeCloseName lt hs => exact .closeTag hs le_rfl le_rfl hle hend
  case closeName lt start hs hstart => exact .closeTag hs hstart le_rfl hle hend
  case afterCloseName lt name hs hname hstop => exact .closeTag hs hname hstop hle hend
  case beforeDeclaration lt hlt => exact .error rfl hi (.leaf rfl hlt hle hfinish)
  case declaration lt hlt => exact .error rfl hi (.leaf rfl hlt hle hfinish)
  case beforeComment lt hlt => exact .error rfl hi (.leaf rfl hlt hle hfinish)
  case comment lt hlt => exact .error rfl hi (.leaf rfl hlt hle hfinish)
  case selfClosing j name hs => exact .error rfl hi (.finishTag (hs.trans hle))
  case beforeAttribute j name hs => exact .error rfl hi (.finishTag (hs.trans hle))
  case attributeName j name start hs hlt => exact .error rfl hi (.finishTag (hs.trans (hlt.le.trans hle)))
  case afterAttributeName j name hs => exact .error rfl hi (.finishTag (hs.trans hle))
  case beforeValue j name hs => exact .error rfl hi (.finishTag (hs.trans hle))
  case doubleQuoted j name start hlt hs => exact .error rfl hi (.finishTag (hlt.le.trans (hs.trans hle)))
  case singleQuoted j name start hlt hs => exact .error rfl hi (.finishTag (hlt.le.trans (hs.trans hle)))
  case unquoted j name start hs hlt => exact .error rfl hi (.finishTag (hs.trans (hlt.trans hle)))
  case attributeExpression j name start isShorthand braces hs hlt =>
    exact .error rfl hi (.finishTag (hs.trans (hlt.le.trans hle)))
  case rawText name start hname hs hnone =>
    exact .rawText hname hs hle hnone (.inl hi) (hi ▸ .finishRaw)
  case beforeEnd name lt hname hat =>
    have hslash := hat.le_length
    omega
  case beforeEndName name lt hname hat =>
    have hlen := hat.le_length
    have hnil : name = [] := List.length_eq_zero_iff.1 (by omega)
    rw [hnil] at hname
    cases hname
  case endName name lt hname hat hs hor =>
    refine .rawClose hname hat (hor.imp_left fun hor => ?_) hs le_rfl hle hend
    exact hor.antisymm (hat.le_length.trans hi.ge)
  case afterEndName j name lt hname hat hs hor hstop =>
    exact .rawClose hname hat hor hs hstop hle hend

/-- **Streams.** The machine reports a stream from every site that agrees with its mode. -/
theorem At.run (h : At cs mode i p) (hi : i ≤ cs.length) (hrest : cs.drop i = rest) :
    Stream cs p (mode.run i rest) := by
  induction mode, i, rest using Mode.run.induct generalizing p with
  | case1 lt i rest ih =>
    have hlen : i + 3 ≤ cs.length := by
      have hlength := congrArg List.length hrest
      rw [List.length_drop, List.length_cons, List.length_cons, List.length_cons] at hlength
      omega
    unfold Mode.run
    cases h
    case comment hlt =>
      refine .leaf rfl (by omega) hlen (ih (.text le_rfl) hlen ?_)
      rw [← List.drop_drop, hrest]
      rfl
  | case2 mode i c rest hne r =>
    rename_i ih
    rw [Mode.run.eq_2 mode i c rest hne]
    exact h.step hrest _ fun q hq => ih hq (lt_length_of_drop hrest) (drop_succ_of_drop hrest)
  | case3 mode i =>
    have hlen : cs.length ≤ i := List.drop_eq_nil_iff.1 hrest
    rw [Mode.run.eq_3]
    exact h.atEnd (hi.antisymm hlen)

end Mode

/-- The tokens of a text from an offset on. -/
theorem tokensFrom_stream (s : String) (start : ℕ) :
    Stream (Text.octets s) (.outside (min start (Text.size s))) (tokensFrom s start) := by
  have hle : min start (Text.size s) ≤ (Text.octets s).length := by
    rw [Text.length_octets]
    exact Nat.min_le_right _ _
  exact (Mode.At.text le_rfl).run hle rfl

end Polyglot.Markup
