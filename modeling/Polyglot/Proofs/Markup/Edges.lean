import Polyglot.Proofs.Text.Octet
import Polyglot.Proofs.Markup.Stream

/-!
# Tokens and characters

Every octet that the machine looks for is ASCII, so what it reports and what it remembers stands between
characters. `Mode.OnEdges` says so of a mode; each step keeps it (`Mode.OnEdges.step`), and with it all
tokens of a text lie on edges (`tokensFrom_onEdges`).
-/

namespace Polyglot.Markup

open Text

/-- The offsets that a token reports, and the ends of what it covers. -/
def Token.edges (size : ℕ) : Token → List ℕ
  | .text r | .expression r | .comment r | .doctype r | .attributeName r | .shorthand r =>
    [r.start, r.stop]
  | .openName r => [r.start - 1, r.start, r.stop]
  | .openEnd i | .selfClose i => [i, i + 1]
  | .closeTag start name stop => [start, name.start, name.stop, stop, min (stop + 1) size]
  | .attributeValue kind r =>
    [(Value.mk kind r).rawSpan.start, r.start, r.stop, (Value.mk kind r).rawSpan.stop]
  | .error e => [e.offset]
  | .finish => []

/-- Every offset of a token is a boundary of the text. -/
def Token.OnEdges (s : String) (t : Token) : Prop := ∀ p ∈ t.edges (size s), isBoundary s p = true

/-- The offsets that a mode remembers, with those next to them that its tokens reach. -/
def Mode.marks : Mode → List ℕ
  | .text i | .textExpression i _ | .unquoted _ i | .attributeName _ i | .rawText _ i
  | .beforeName i | .beforeCloseName i | .beforeDeclaration i | .declaration i
  | .beforeComment i | .comment i => [i]
  | .openName i _ | .doubleQuoted _ i | .singleQuoted _ i => [i - 1, i]
  | .closeName lt start => [lt, start]
  | .afterCloseName lt name => [lt, name.start, name.stop]
  | .attributeExpression _ i _ _ => [i, i + 1]
  | .selfClosing _ | .beforeAttribute _ | .afterAttributeName _ | .beforeValue _ => []

/-- A name, an attribute or a value may begin right away, so an ASCII octet came last. -/
def Mode.isFresh : Mode → Bool
  | .beforeName _ | .beforeCloseName _ | .selfClosing _ | .beforeAttribute _
  | .afterAttributeName _ | .beforeValue _ => true
  | _ => false

/-- What the machine remembers in this mode at offset `i` stands between characters. -/
structure Mode.OnEdges (s : String) (mode : Mode) (i : ℕ) : Prop where
  marks : ∀ p ∈ mode.marks, isBoundary s p = true
  fresh : mode.isFresh = true → isBoundary s (i - 1) = true ∧ isBoundary s i = true

namespace Mode

variable {s : String} {mode : Mode} {i start : ℕ} {c : Char} {rest name : List Char}

/-- A step leads to a mode on edges at `i` and reports tokens on edges. -/
def StepsOnEdges (s : String) (r : Mode × List Token) (i : ℕ) : Prop :=
  r.1.OnEdges s i ∧ ∀ t ∈ r.2, t.OnEdges s

/-! ## ASCII octets -/

theorem isAsciiOctet_of_isAsciiBlank (h : isAsciiBlank c = true) : IsAsciiOctet c := by
  unfold isAsciiBlank at h
  split at h
  all_goals first
    | decide
    | cases h

theorem isAsciiOctet_of_endsTagSection (h : endsTagSection c = true) : IsAsciiOctet c := by
  unfold endsTagSection at h
  rw [Bool.or_eq_true, Bool.or_eq_true, beq_iff_eq, beq_iff_eq] at h
  rcases h with (rfl | rfl) | h
  · decide
  · decide
  · exact isAsciiOctet_of_isAsciiBlank h

/-- Both ends of an ASCII octet. -/
theorem edges_of_ascii (h : octet? s i = some c) (hc : IsAsciiOctet c) :
    isBoundary s i = true ∧ isBoundary s (i + 1) = true :=
  ⟨isBoundary_of_ascii h hc, isBoundary_succ_of_ascii h hc⟩

/-- The only octet that ends an expression is a brace. -/
theorem eq_brace_of_step? {braces : Braces} (h : braces.step? c = none) : c = '\x7d' := by
  unfold Braces.step? at h
  split at h
  · split_ifs at h
  · split_ifs at h with _ _ hc
    exact hc

/-! ## Steps -/

theorem OnEdges.text (h : isBoundary s start = true) : (Mode.text start).OnEdges s i :=
  ⟨by simpa [Mode.marks] using h, nofun⟩

theorem pendingText_onEdges (hstart : isBoundary s start = true) (hi : isBoundary s i = true) :
    ∀ t ∈ pendingText start i, t.OnEdges s := by
  intro t ht
  unfold pendingText at ht
  split_ifs at ht
  · obtain rfl := List.mem_singleton.1 ht
    simp [Token.OnEdges, Token.edges, hstart, hi]
  · cases ht

theorem stepText_onEdges (hstart : isBoundary s start = true) (hc : octet? s i = some c) :
    StepsOnEdges s (stepText start i c) (i + 1) := by
  unfold stepText
  split_ifs with hlt hbrace
  · obtain ⟨hi, hnext⟩ := edges_of_ascii hc (hlt ▸ by decide)
    exact ⟨⟨by simp [Mode.marks, hi], fun _ => ⟨hi, hnext⟩⟩, pendingText_onEdges hstart hi⟩
  · obtain ⟨hi, -⟩ := edges_of_ascii hc (hbrace ▸ by decide)
    exact ⟨⟨by simp [Mode.marks, hi], nofun⟩, pendingText_onEdges hstart hi⟩
  · exact ⟨.text hstart, nofun⟩

theorem afterStartTag_onEdges (hnext : isBoundary s (i + 1) = true) :
    (afterStartTag name i).OnEdges s (i + 1) := by
  unfold afterStartTag
  split_ifs
  · exact ⟨by simpa [Mode.marks] using hnext, nofun⟩
  · exact .text hnext

/-- The `>` of a start tag. -/
theorem openEnd_onEdges (hc : octet? s i = some '>') :
    StepsOnEdges s (afterStartTag name i, [.openEnd i]) (i + 1) := by
  obtain ⟨hi, hnext⟩ := edges_of_ascii hc (by decide)
  exact ⟨afterStartTag_onEdges hnext, by simp [Token.OnEdges, Token.edges, hi, hnext]⟩

theorem stepAttribute_onEdges (hi : isBoundary s i = true) (hc : octet? s i = some c) :
    StepsOnEdges s (stepAttribute name i c) (i + 1) := by
  unfold stepAttribute
  split_ifs with hgt hslash hbrace hblank
  · exact openEnd_onEdges (hgt ▸ hc)
  · exact ⟨⟨nofun, fun _ => edges_of_ascii hc (hslash ▸ by decide)⟩, nofun⟩
  · obtain ⟨-, hnext⟩ := edges_of_ascii hc (hbrace ▸ by decide)
    exact ⟨⟨by simp [Mode.marks, hi, hnext], nofun⟩, nofun⟩
  · exact ⟨⟨nofun, fun _ => edges_of_ascii hc (isAsciiOctet_of_isAsciiBlank hblank)⟩, nofun⟩
  · exact ⟨⟨by simp [Mode.marks, hi], nofun⟩, nofun⟩

theorem stepAfterAttributeName_onEdges (hi : isBoundary s i = true) (hc : octet? s i = some c) :
    StepsOnEdges s (stepAfterAttributeName name i c) (i + 1) := by
  unfold stepAfterAttributeName
  split_ifs with heq hblank
  · exact ⟨⟨nofun, fun _ => edges_of_ascii hc (heq ▸ by decide)⟩, nofun⟩
  · exact ⟨⟨nofun, fun _ => edges_of_ascii hc (isAsciiOctet_of_isAsciiBlank hblank)⟩, nofun⟩
  · exact stepAttribute_onEdges hi hc

theorem stepDeclaration_onEdges (hlt : isBoundary s start = true) (hc : octet? s i = some c) :
    StepsOnEdges s (stepDeclaration start i c) (i + 1) := by
  unfold stepDeclaration
  split_ifs with hgt
  · obtain ⟨-, hnext⟩ := edges_of_ascii hc (hgt ▸ by decide)
    exact ⟨.text hnext, by simp [Token.OnEdges, Token.edges, hlt, hnext]⟩
  · exact ⟨⟨by simpa [Mode.marks] using hlt, nofun⟩, nofun⟩

theorem emitting_onEdges {t : Token} {r : Mode × List Token} (ht : t.OnEdges s)
    (hr : StepsOnEdges s r i) : StepsOnEdges s (emitting [t] r) i :=
  ⟨hr.1, List.forall_mem_cons.2 ⟨ht, hr.2⟩⟩

/-- The `>` of an end tag. -/
theorem closeTag_onEdges {tag : Span} (hlt : isBoundary s start = true)
    (hstart : isBoundary s tag.start = true) (hstop : isBoundary s tag.stop = true)
    (hc : octet? s i = some '>') :
    StepsOnEdges s (.text (i + 1), [.closeTag start tag i]) (i + 1) := by
  obtain ⟨hi, hnext⟩ := edges_of_ascii hc (by decide)
  have hmin : min (i + 1) (size s) = i + 1 := Nat.min_eq_left (lt_size_of_octet? hc)
  exact ⟨.text hnext, by simp [Token.OnEdges, Token.edges, hlt, hstart, hstop, hi, hmin, hnext]⟩

/-- Behind a `<`. -/
theorem step_beforeName_onEdges (rest : List Char) (hlt : isBoundary s start = true)
    (hbefore : isBoundary s (i - 1) = true) (hi : isBoundary s i = true) (hc : octet? s i = some c) :
    StepsOnEdges s ((beforeName start).step i c rest) (i + 1) := by
  unfold Mode.step
  dsimp only
  split_ifs with hbang halpha hgt hslash
  · exact ⟨⟨by simpa [Mode.marks] using hlt, nofun⟩, nofun⟩
  · exact ⟨⟨by simp [Mode.marks, hbefore, hi], nofun⟩, nofun⟩
  · obtain ⟨hmode, hend⟩ : StepsOnEdges s (afterStartTag [] i, [.openEnd i]) (i + 1) :=
      openEnd_onEdges (hgt ▸ hc)
    exact ⟨hmode, List.forall_mem_cons.2
      ⟨by simp [Token.OnEdges, Token.edges, hbefore, hi], hend⟩⟩
  · exact ⟨⟨by simpa [Mode.marks] using hlt, fun _ => edges_of_ascii hc (hslash ▸ by decide)⟩, nofun⟩
  · exact stepText_onEdges hlt hc

/-- Behind the `=` of an attribute. -/
theorem step_beforeValue_onEdges (rest : List Char) (hi : isBoundary s i = true)
    (hc : octet? s i = some c) :
    StepsOnEdges s ((beforeValue name).step i c rest) (i + 1) := by
  have hascii := edges_of_ascii hc
  unfold Mode.step
  dsimp only
  split_ifs with hdouble hsingle hbrace hgt hblank
  · have hquote := hascii (hdouble ▸ by decide)
    exact ⟨⟨by simp [Mode.marks, hquote], nofun⟩, nofun⟩
  · have hquote := hascii (hsingle ▸ by decide)
    exact ⟨⟨by simp [Mode.marks, hquote], nofun⟩, nofun⟩
  · have hopen := hascii (hbrace ▸ by decide)
    exact ⟨⟨by simp [Mode.marks, hopen], nofun⟩, nofun⟩
  · exact openEnd_onEdges (hgt ▸ hc)
  · exact ⟨⟨nofun, fun _ => hascii (isAsciiOctet_of_isAsciiBlank hblank)⟩, nofun⟩
  · exact ⟨⟨by simp [Mode.marks, hi], nofun⟩, nofun⟩

/-- The quote or brace behind a value. -/
theorem enclosed_onEdges {kind : ValueKind} (hkind : kind ≠ .unquoted)
    (hopen : isBoundary s (start - 1) = true) (hstart : isBoundary s start = true)
    (hi : isBoundary s i = true ∧ isBoundary s (i + 1) = true) :
    StepsOnEdges s (.beforeAttribute name, [.attributeValue kind ⟨start, i⟩]) (i + 1) := by
  refine ⟨⟨nofun, fun _ => hi⟩, ?_⟩
  cases kind
  case unquoted => exact absurd rfl hkind
  all_goals simp [Token.OnEdges, Token.edges, Value.rawSpan, hopen, hstart, hi]

/-- **Steps.** Each step stays on edges. -/
theorem OnEdges.step (h : mode.OnEdges s i) (hc : octet? s i = some c) :
    StepsOnEdges s (mode.step i c rest) (i + 1) := by
  obtain ⟨hmarks, hfresh⟩ := h
  have hascii := edges_of_ascii hc
  have hblank (hc : isAsciiBlank c = true) := hascii (isAsciiOctet_of_isAsciiBlank hc)
  unfold Mode.step
  cases mode <;> dsimp only <;> simp only [Mode.marks, List.forall_mem_cons] at hmarks
  case text start => exact stepText_onEdges hmarks.1 hc
  case textExpression start braces =>
    rcases hstep : braces.step? c with _ | braces
    · obtain ⟨-, hnext⟩ := hascii (eq_brace_of_step? hstep ▸ by decide)
      exact ⟨.text hnext, by simp [Token.OnEdges, Token.edges, hmarks.1, hnext]⟩
    · exact ⟨⟨by simpa [Mode.marks] using hmarks.1, nofun⟩, nofun⟩
  case beforeName lt =>
    obtain ⟨hbefore, hi⟩ := hfresh rfl
    exact step_beforeName_onEdges rest hmarks.1 hbefore hi hc
  case openName start spelled =>
    split_ifs with hends
    · obtain ⟨hi, -⟩ := hascii (isAsciiOctet_of_endsTagSection hends)
      exact emitting_onEdges (by simp [Token.OnEdges, Token.edges, hmarks.1, hmarks.2.1, hi])
        (stepAttribute_onEdges hi hc)
    · exact ⟨⟨by simp [Mode.marks, hmarks.1, hmarks.2.1], nofun⟩, nofun⟩
  case selfClosing name =>
    split_ifs with hgt hc'
    · obtain ⟨hi, hnext⟩ := hascii (hgt ▸ by decide)
      exact ⟨.text hnext, by simp [Token.OnEdges, Token.edges, hi, hnext]⟩
    · exact ⟨⟨nofun, fun _ => hblank hc'⟩, nofun⟩
    · exact stepAttribute_onEdges (hfresh rfl).2 hc
  case beforeCloseName lt =>
    split_ifs with hc' hgt
    · exact ⟨⟨by simpa [Mode.marks] using hmarks.1, fun _ => hblank hc'⟩, nofun⟩
    · have hi := (hfresh rfl).2
      exact closeTag_onEdges hmarks.1 hi hi (hgt ▸ hc)
    · exact ⟨⟨by simp [Mode.marks, hmarks.1, (hfresh rfl).2], nofun⟩, nofun⟩
  case closeName lt start =>
    split_ifs with hgt hc'
    · exact closeTag_onEdges hmarks.1 hmarks.2.1 (hascii (hgt ▸ by decide)).1 (hgt ▸ hc)
    · exact ⟨⟨by simp [Mode.marks, hmarks.1, hmarks.2.1, (hblank hc').1], nofun⟩, nofun⟩
    · exact ⟨⟨by simp [Mode.marks, hmarks.1, hmarks.2.1], nofun⟩, nofun⟩
  case afterCloseName lt name =>
    split_ifs with hgt
    · exact closeTag_onEdges hmarks.1 hmarks.2.1 hmarks.2.2.1 (hgt ▸ hc)
    · exact ⟨⟨by simp [Mode.marks, hmarks.1, hmarks.2.1, hmarks.2.2.1], nofun⟩, nofun⟩
  case beforeAttribute name => exact stepAttribute_onEdges (hfresh rfl).2 hc
  case attributeName name start =>
    split_ifs with hends
    · have hi : isBoundary s i = true := by
        rw [Bool.or_eq_true, decide_eq_true_eq] at hends
        rcases hends with heq | hends
        · exact (hascii (heq ▸ by decide)).1
        · exact (hascii (isAsciiOctet_of_endsTagSection hends)).1
      exact emitting_onEdges (by simp [Token.OnEdges, Token.edges, hmarks.1, hi])
        (stepAfterAttributeName_onEdges hi hc)
    · exact ⟨⟨by simpa [Mode.marks] using hmarks.1, nofun⟩, nofun⟩
  case afterAttributeName name => exact stepAfterAttributeName_onEdges (hfresh rfl).2 hc
  case beforeValue name => exact step_beforeValue_onEdges rest (hfresh rfl).2 hc
  case doubleQuoted name start =>
    split_ifs with hquote
    · exact enclosed_onEdges (by decide) hmarks.1 hmarks.2.1 (hascii (hquote ▸ by decide))
    · exact ⟨⟨by simp [Mode.marks, hmarks.1, hmarks.2.1], nofun⟩, nofun⟩
  case singleQuoted name start =>
    split_ifs with hquote
    · exact enclosed_onEdges (by decide) hmarks.1 hmarks.2.1 (hascii (hquote ▸ by decide))
    · exact ⟨⟨by simp [Mode.marks, hmarks.1, hmarks.2.1], nofun⟩, nofun⟩
  case unquoted name start =>
    split_ifs with hends
    · have hi : isBoundary s i = true := by
        rw [Bool.or_eq_true, decide_eq_true_eq] at hends
        rcases hends with hc' | hgt
        · exact (hblank hc').1
        · exact (hascii (hgt ▸ by decide)).1
      exact emitting_onEdges
        (by simp [Token.OnEdges, Token.edges, Value.rawSpan, hmarks.1, hi])
        (stepAttribute_onEdges hi hc)
    · exact ⟨⟨by simpa [Mode.marks] using hmarks.1, nofun⟩, nofun⟩
  case attributeExpression name start isShorthand braces =>
    rcases hstep : braces.step? c with _ | braces
    · have hi := hascii (eq_brace_of_step? hstep ▸ by decide)
      cases isShorthand
      · exact enclosed_onEdges (by decide) hmarks.1 hmarks.2.1 hi
      · exact ⟨⟨nofun, fun _ => hi⟩, by simp [Token.OnEdges, Token.edges, hmarks.1, hi]⟩
    · exact ⟨⟨by simp [Mode.marks, hmarks.1, hmarks.2.1], nofun⟩, nofun⟩
  case beforeDeclaration lt =>
    split_ifs
    · exact ⟨⟨by simpa [Mode.marks] using hmarks.1, nofun⟩, nofun⟩
    · exact stepDeclaration_onEdges hmarks.1 hc
  case declaration lt => exact stepDeclaration_onEdges hmarks.1 hc
  case beforeComment lt =>
    split_ifs
    · exact ⟨⟨by simpa [Mode.marks] using hmarks.1, nofun⟩, nofun⟩
    · exact stepDeclaration_onEdges hmarks.1 hc
  case comment lt => exact ⟨⟨by simpa [Mode.marks] using hmarks.1, nofun⟩, nofun⟩
  case rawText name start =>
    split_ifs with hend
    · have hi := hascii (hend.1 ▸ by decide)
      exact ⟨⟨by simp [Mode.marks, hi], fun _ => hi⟩, pendingText_onEdges hmarks.1 hi.1⟩
    · exact ⟨⟨by simpa [Mode.marks] using hmarks.1, nofun⟩, nofun⟩

/-- The tokens at the end of the text. -/
theorem OnEdges.atEnd (h : mode.OnEdges s (size s)) :
    ∀ t ∈ mode.atEnd (size s), t.OnEdges s := by
  obtain ⟨hmarks, -⟩ := h
  unfold Mode.atEnd
  cases mode <;> dsimp only <;> simp only [Mode.marks, List.forall_mem_cons] at hmarks
  case text start => exact pendingText_onEdges hmarks.1 (isBoundary_size s)
  case rawText name start => exact pendingText_onEdges hmarks.1 (isBoundary_size s)
  all_goals simp [Token.OnEdges, Token.edges, hmarks]

/-- **Runs.** All tokens of a run from a mode on edges lie on edges. -/
theorem OnEdges.run (h : mode.OnEdges s i) (hi : i ≤ size s)
    (hrest : (octets s).drop i = rest) : ∀ t ∈ mode.run i rest, t.OnEdges s := by
  induction mode, i, rest using Mode.run.induct with
  | case1 lt i rest ih =>
    have hget (k : ℕ) (hk : k < 3) : octet? s (i + k) = ['-', '-', '>'][k]? := by
      rw [octet?_eq_octets, ← List.getElem?_drop, hrest]
      interval_cases k <;> rfl
    obtain ⟨-, hnext⟩ := edges_of_ascii (hget 2 (by omega)) (by decide)
    have hlt := h.marks lt List.mem_cons_self
    unfold Mode.run
    refine List.forall_mem_cons.2 ⟨by simp [Token.OnEdges, Token.edges, hlt, hnext], ?_⟩
    refine ih (.text hnext) (le_size_of_isBoundary hnext) ?_
    rw [← List.drop_drop, hrest]
    rfl
  | case2 mode i c rest hne r =>
    rename_i ih
    have hc : octet? s i = some c := by
      rw [octet?_eq_octets]
      exact getElem?_of_drop hrest
    obtain ⟨hmode, htokens⟩ : StepsOnEdges s (mode.step i c rest) (i + 1) := h.step hc
    rw [Mode.run.eq_2 mode i c rest hne]
    exact List.forall_mem_append.2
      ⟨htokens, ih hmode (lt_size_of_octet? hc) (drop_succ_of_drop hrest)⟩
  | case3 mode i =>
    have hlen : size s ≤ i := by
      rw [← length_octets]
      exact List.drop_eq_nil_iff.1 hrest
    obtain rfl : i = size s := hi.antisymm hlen
    rw [Mode.run.eq_3]
    refine List.forall_mem_append.2 ⟨h.atEnd, ?_⟩
    simp [Token.OnEdges, Token.edges]

end Mode

/-- The tokens of a text from a boundary on lie on edges. -/
theorem tokensFrom_onEdges {s : String} {start : ℕ} (h : isBoundary s start = true) :
    ∀ t ∈ tokensFrom s start, t.OnEdges s := by
  have hle := le_size_of_isBoundary h
  unfold tokensFrom
  rw [Nat.min_eq_left hle]
  exact (Mode.OnEdges.text h).run hle rfl

end Polyglot.Markup
