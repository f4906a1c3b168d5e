import Polyglot.Proofs.Markup.Edges
import Polyglot.Proofs.Text.Spans

/-!
# Tokens cover the text

Nothing is lost between the start and the end of a text: what its tokens cover lies side by side, a start
tag with its attributes counted as one (`tokensFrom_lossless`). That follows from the grammar of streams.
The states that the machine passes through are followed step by step (`Mode.Reached`), to show that no
expression closes more braces than it opened.
-/

namespace Polyglot.Markup

open Text

/-! ## What tokens cover -/

/-- The span of an attribute token, with its quotes or braces. -/
def Token.attribute? : Token → Option Span
  | .attributeName r | .shorthand r => some r
  | .attributeValue kind r => some (Value.mk kind r).rawSpan
  | _ => none

/-- A token between the name and the end of a start tag. -/
def Token.isInTag : Token → Bool
  | .attributeName _ | .attributeValue .. | .shorthand _ | .error _ => true
  | _ => false

/-- Where the start tag ends whose name these tokens follow: behind its `>`, or at the end of the text. -/
def tagEnd (size : ℕ) (ts : List Token) : ℕ :=
  match ts.dropWhile Token.isInTag with
  | .openEnd i :: _ | .selfClose i :: _ => i + 1
  | _ => size

/-- The attributes of the start tag whose name these tokens follow. -/
def tagAttributes (ts : List Token) : List Span :=
  (ts.takeWhile Token.isInTag).filterMap Token.attribute?

/-- What the tokens of a text of `size` octets cover: a start tag from its `<` to its end, an end tag to
its `>`, if there is one, and every other piece its own span. -/
def extents (size : ℕ) : List Token → List Span
  | [] => []
  | .text r :: ts | .expression r :: ts | .comment r :: ts | .doctype r :: ts => r :: extents size ts
  | .openName r :: ts => ⟨r.start - 1, tagEnd size ts⟩ :: extents size ts
  | .closeTag start _ stop :: ts => ⟨start, min (stop + 1) size⟩ :: extents size ts
  | _ :: ts => extents size ts

variable {cs : List Char} {ts before after : List Token} {t : Token} {p : Site} {i j n : ℕ}
  {r : Span}

theorem extents_leaf (h : t.leaf? = some r) : extents n (t :: ts) = r :: extents n ts := by
  cases t <;> cases h <;> rfl

theorem extents_pendingText (h : Tiles j n (extents n ts)) (hle : i ≤ j) :
    Tiles i n (extents n (pendingText i j ++ ts)) := by
  unfold pendingText
  split_ifs with hlt
  · exact .cons hlt h
  · obtain rfl : i = j := by omega
    exact h

/-- Where a site begins: in a start tag what was covered reaches to its end. -/
def Site.edge (size : ℕ) (ts : List Token) : Site → ℕ
  | .outside i | .raw _ i | .rawEnd _ i => i
  | .tag _ _ => tagEnd size ts

theorem edge_content (name : List Char) (i : ℕ) : (Site.content name i).edge n ts = i := by
  unfold Site.content
  split_ifs <;> rfl

/-- The attributes of a start tag stand one behind the other, between its name and its end. -/
theorem Stream.inOrder {name : List Char} (h : Stream cs (.tag name i) ts) :
    InOrder i (tagEnd cs.length ts) (tagAttributes ts) := by
  generalize hp : Site.tag name i = p at h
  induction h generalizing i with
  | finish | finishRaw | leaf | openName | closeTag | rawText | rawClose => cases hp
  | finishTag hi =>
    cases hp
    exact .nil hi
  | error _ _ _ ih => exact ih hp
  | attributeName hle hlt _ _ ih =>
    cases hp
    exact .cons hle hlt.le (ih rfl)
  | @attributeValue _ _ kind r _ hle hr _ _ ih =>
    cases hp
    refine .cons hle ?_ (ih rfl)
    unfold Value.rawSpan
    split
    · exact hr
    · dsimp only
      omega
  | shorthand hle hlt _ _ ih =>
    cases hp
    exact .cons hle (by dsimp only; omega) (ih rfl)
  | openEnd hle _ _ _ | selfClose hle _ _ _ =>
    cases hp
    exact .nil (Nat.le_succ_of_le hle)

/-- **Tiling.** What a stream covers lies side by side from its site to the end of the text. -/
theorem Stream.tiles (h : Stream cs p ts) :
    Tiles (p.edge cs.length ts) cs.length (extents cs.length ts) := by
  induction h with
  | finish | finishRaw => exact .nil
  | finishTag _ => exact .nil
  | @error p e ts _ _ _ ih => cases p <;> exact ih
  | leaf ht hlt _ _ ih =>
    rw [extents_leaf ht]
    exact .cons hlt ih
  | openName _ hlt _ hts ih => exact .cons (hlt.trans_le hts.inOrder.le) ih
  | attributeName | attributeValue | shorthand => assumption
  | openEnd _ _ _ ih =>
    rw [edge_content] at ih
    exact ih
  | selfClose _ _ _ ih => exact ih
  | @closeTag i name stop _ hstart hle hstop hlen _ ih =>
    have hlt : i < min (stop + 1) cs.length := by omega
    exact .cons hlt ih
  | rawText _ hle _ _ _ _ ih => exact extents_pendingText ih hle
  | @rawClose _ i _ stop _ _ _ _ hj hstop hlen _ ih =>
    have hlt : i < min (stop + 1) cs.length := by omega
    exact .cons hlt ih

/-! ## Start tags -/

/-- A token that only a start tag holds: an attribute, or the end of the tag. -/
def Token.needsTag : Token → Bool
  | .attributeName _ | .attributeValue .. | .shorthand _ | .openEnd _ | .selfClose _ => true
  | _ => false

theorem Token.needsTag_of_attribute? (h : t.attribute?.isSome = true) : t.needsTag = true := by
  cases t <;> first | rfl | cases h

theorem content_ne_tag {name name' : List Char} : Site.content name i ≠ .tag name' j := by
  unfold Site.content
  split_ifs <;> nofun

/-- The site behind a token. It is in a start tag only if the one before was and the token does not end
it, or if the token is the name of the tag. -/
theorem Stream.next (h : Stream cs p (t :: ts)) (hts : ts ≠ []) :
    ∃ q, Stream cs q ts ∧ ((∃ name k, q = .tag name k) →
      (∃ name k, p = .tag name k) ∧ t.isInTag = true ∨ ∃ r, t = .openName r) := by
  generalize hall : t :: ts = all at h
  induction h with
  | finish | finishTag | finishRaw =>
    cases hall
    exact absurd rfl hts
  | error _ _ hrest =>
    cases hall
    exact ⟨_, hrest, fun hp => .inl ⟨hp, rfl⟩⟩
  | openName _ _ _ hrest =>
    cases hall
    exact ⟨_, hrest, fun _ => .inr ⟨_, rfl⟩⟩
  | attributeName _ _ _ hrest | attributeValue _ _ _ hrest | shorthand _ _ _ hrest =>
    cases hall
    exact ⟨_, hrest, fun _ => .inl ⟨⟨_, _, rfl⟩, rfl⟩⟩
  | openEnd _ _ hrest =>
    cases hall
    exact ⟨_, hrest, fun ⟨_, _, hq⟩ => absurd hq content_ne_tag⟩
  | leaf _ _ _ hrest | selfClose _ _ hrest | closeTag _ _ _ _ hrest | rawClose _ _ _ _ _ _ hrest =>
    cases hall
    exact ⟨_, hrest, nofun⟩
  | rawText _ _ _ _ _ hrest ih =>
    unfold Markup.pendingText at hall
    split_ifs at hall
    · cases hall
      exact ⟨_, hrest, nofun⟩
    · obtain ⟨q, hq, htag⟩ := ih hall
      exact ⟨q, hq, fun h => .inr ((htag h).resolve_left nofun)⟩

/-- These tokens end inside a start tag: the one that a site is in, or one that they begin. -/
inductive EndsInTag : Site → List Token → Prop
  | here {name : List Char} {i : ℕ} {ts : List Token} : ts.all Token.isInTag = true →
      EndsInTag (.tag name i) ts
  | later {p : Site} (outer : List Token) {inner : List Token} {r : Span} : inner.all Token.isInTag = true →
      EndsInTag p (outer ++ .openName r :: inner)

/-- The site in front of any token of a stream. -/
theorem Stream.exists_site (h : Stream cs p (before ++ t :: after)) :
    ∃ q, Stream cs q (t :: after) ∧ ((∃ name k, q = .tag name k) → EndsInTag p before) := by
  induction before generalizing p with
  | nil => exact ⟨p, h, fun ⟨_, _, hp⟩ => hp ▸ .here rfl⟩
  | cons u before ih =>
    obtain ⟨o, ho, hnext⟩ := h.next (by simp)
    obtain ⟨q, hq, hends⟩ := ih ho
    refine ⟨q, hq, fun htag => ?_⟩
    cases hends htag with
    | here hinner =>
      rcases hnext ⟨_, _, rfl⟩ with ⟨⟨_, _, rfl⟩, hu⟩ | ⟨r, rfl⟩
      · exact .here (by rw [List.all_cons, hu, hinner]; rfl)
      · exact .later [] hinner
    | later outer hinner => exact .later (u :: outer) hinner

/-- A stream that begins with such a token is in a start tag. -/
theorem Stream.exists_tag (h : Stream cs p (t :: ts)) (ht : t.needsTag = true) :
    ∃ name k, p = .tag name k := by
  generalize hall : t :: ts = all at h
  induction h with
  | attributeName | attributeValue | shorthand | openEnd | selfClose => exact ⟨_, _, rfl⟩
  | leaf hleaf =>
    cases hall
    cases t <;> cases ht <;> cases hleaf
  | rawText _ _ _ _ _ _ ih =>
    unfold Markup.pendingText at hall
    split_ifs at hall
    · cases hall
      cases ht
    · obtain ⟨_, _, hq⟩ := ih hall
      cases hq
  | _ =>
    cases hall
    cases ht

/-- What comes before an attribute ends inside a start tag. -/
theorem Stream.endsInTag (h : Stream cs p ts) (ht : t.attribute?.isSome = true)
    (hts : ts = before ++ t :: after) : EndsInTag p before := by
  subst hts
  obtain ⟨q, hq, hends⟩ := h.exists_site
  exact hends (hq.exists_tag (Token.needsTag_of_attribute? ht))

/-- Behind a name the stream goes on inside its start tag. -/
theorem Stream.tag_of_openName (h : Stream cs p (.openName r :: ts)) :
    r.start ≤ r.stop ∧ r.stop ≤ cs.length ∧ Stream cs (.tag (octetsAt cs r) r.stop) ts := by
  generalize hall : Token.openName r :: ts = all at h
  induction h with
  | openName _ hlt hlen hrest =>
    cases hall
    exact ⟨hlt, hlen, hrest⟩
  | leaf hleaf =>
    cases hall
    cases hleaf
  | rawText _ _ _ _ _ _ ih =>
    unfold Markup.pendingText at hall
    split_ifs at hall
    · cases hall
    · exact ih hall
  | _ => cases hall

theorem Stream.behind_openName (h : Stream cs p ts) (hts : ts = before ++ .openName r :: after) :
    ∃ name, Stream cs (.tag name r.stop) after := by
  subst hts
  obtain ⟨q, hq, -⟩ := h.exists_site
  exact ⟨_, hq.tag_of_openName.2.2⟩

/-! ## The states of the machine -/

/-- The braces that an expression has open, if the machine reads one. -/
def Mode.braces? : Mode → Option Braces
  | .textExpression _ braces | .attributeExpression _ _ _ braces => some braces
  | _ => none

/-- What the machine goes on with, where, and what it reports in between. -/
def Mode.next? : Mode → ℕ → List Char → Option (Mode × ℕ × List Token)
  | .comment lt, i, '-' :: '-' :: '>' :: _ => some (.text (i + 3), i + 3, [.comment ⟨lt, i + 3⟩])
  | mode, i, c :: rest => some ((mode.step i c rest).1, i + 1, (mode.step i c rest).2)
  | _, _, [] => none

/-- Started in text at `start`, the machine comes to offset `i` in this mode. -/
inductive Mode.Reached (cs : List Char) (start : ℕ) : Mode → ℕ → Prop
  | start : Reached cs start (.text start) start
  | next {mode mode' : Mode} {i i' : ℕ} {ts : List Token} : Reached cs start mode i →
      mode.next? i (cs.drop i) = some (mode', i', ts) → Reached cs start mode' i'

namespace Mode

variable {mode mode' : Mode} {i' start : ℕ} {rest : List Char} {c : Char}

theorem run_of_next? (h : mode.next? i rest = some (mode', i', ts)) :
    i ≤ i' ∧ mode.run i rest = ts ++ mode'.run i' (rest.drop (i' - i)) := by
  induction mode, i, rest using Mode.run.induct with
  | case1 lt i rest =>
    rw [next?] at h
    cases h
    rw [Nat.add_sub_cancel_left]
    exact ⟨Nat.le_add_right _ _, rfl⟩
  | case2 mode i c rest hne r =>
    rw [next?.eq_2 mode i c rest hne] at h
    cases h
    rw [Nat.add_sub_cancel_left]
    exact ⟨Nat.le_succ i, Mode.run.eq_2 mode i c rest hne⟩
  | case3 mode i =>
    rw [next?.eq_3] at h
    cases h

/-- From a state that is reached the machine reports the rest of the tokens. -/
theorem Reached.run_eq (h : Reached cs start mode i) :
    ∃ before, (Mode.text start).run start (cs.drop start) = before ++ mode.run i (cs.drop i) := by
  induction h with
  | start => exact ⟨[], rfl⟩
  | @next mode mode' i i' ts _ hnext ih =>
    obtain ⟨before, ih⟩ := ih
    obtain ⟨hle, hrun⟩ := run_of_next? hnext
    rw [List.drop_drop, Nat.add_sub_cancel' hle] at hrun
    exact ⟨before ++ ts, by rw [ih, hrun, List.append_assoc]⟩

/-- An expression that is read has a brace open. -/
def Balanced (mode : Mode) : Prop := ∀ braces ∈ mode.braces?, 0 < braces.depth

theorem balanced_start {braces : Braces} (h : braces ∈ some Braces.start) : 0 < braces.depth := by
  obtain rfl := Option.some.inj h
  exact Nat.one_pos

theorem depth_pos_of_step? {braces braces' : Braces} (h : braces.step? c = some braces')
    (hpos : 0 < braces.depth) : 0 < braces'.depth := by
  unfold Braces.step? at h
  split at h
  · split_ifs at h <;> cases h <;> exact hpos
  · split_ifs at h with hquote hopen hclose hlast <;> cases h
    · exact hpos
    · exact Nat.succ_pos _
    · exact Nat.sub_pos_of_lt (Nat.lt_of_not_le hlast)
    · exact hpos

theorem balanced_step_braces {braces : Braces} {f : Braces → Mode} {m : Mode} {ts' : List Token}
    (hf : ∀ b, (f b).braces? = some b) (hm : m.braces? = none) (hpos : 0 < braces.depth) :
    Balanced (match braces.step? c with
      | some b => (f b, ([] : List Token))
      | none => (m, ts')).1 := by
  rcases hstep : braces.step? c with _ | b
  · simp [Balanced, hm]
  · simpa [Balanced, hf] using depth_pos_of_step? hstep hpos

theorem balanced_of_none (h : mode.braces? = none) : Balanced mode := by
  simp [Balanced, h]

theorem braces_afterStartTag (name : List Char) (i : ℕ) : (afterStartTag name i).braces? = none := by
  unfold afterStartTag
  split_ifs <;> rfl

theorem balanced_stepText : Balanced (stepText start i c).1 := by
  unfold stepText
  split_ifs
  · exact balanced_of_none rfl
  · exact fun _ => balanced_start
  · exact balanced_of_none rfl

theorem balanced_stepAttribute {name : List Char} : Balanced (stepAttribute name i c).1 := by
  unfold stepAttribute
  split_ifs
  · exact balanced_of_none (braces_afterStartTag _ _)
  · exact balanced_of_none rfl
  · exact fun _ => balanced_start
  · exact balanced_of_none rfl
  · exact balanced_of_none rfl

theorem balanced_stepAfterAttributeName {name : List Char} :
    Balanced (stepAfterAttributeName name i c).1 := by
  unfold stepAfterAttributeName
  split_ifs
  · exact balanced_of_none rfl
  · exact balanced_of_none rfl
  · exact balanced_stepAttribute

theorem balanced_stepDeclaration : Balanced (stepDeclaration start i c).1 := by
  unfold stepDeclaration
  split_ifs <;> exact balanced_of_none rfl

theorem Balanced.step (h : Balanced mode) : Balanced (mode.step i c rest).1 := by
  unfold Mode.step
  cases mode <;> dsimp only
  case text => exact balanced_stepText
  case textExpression start braces =>
    exact balanced_step_braces (fun _ => rfl) rfl (h braces rfl)
  case attributeExpression name start isShorthand braces =>
    exact balanced_step_braces (fun _ => rfl) rfl (h braces rfl)
  case beforeAttribute => exact balanced_stepAttribute
  case afterAttributeName => exact balanced_stepAfterAttributeName
  case declaration => exact balanced_stepDeclaration
  case comment => exact h
  all_goals
    split_ifs
  all_goals first
    | exact balanced_of_none rfl
    | exact balanced_of_none (braces_afterStartTag _ _)
    | exact balanced_stepText
    | exact balanced_stepAttribute
    | exact balanced_stepAfterAttributeName
    | exact balanced_stepDeclaration
    | exact fun _ => balanced_start

/-- No state that is reached has closed more braces than it opened. -/
theorem Reached.balanced (h : Reached cs start mode i) : Balanced mode := by
  induction h with
  | start => exact balanced_of_none rfl
  | @next mode mode' i i' ts _ hnext ih =>
    unfold next? at hnext
    split at hnext
    · cases hnext
      exact balanced_of_none rfl
    · cases hnext
      exact ih.step
    · cases hnext

end Mode

/-! ## Tokens of a text -/

/-- **Lossless.** From any boundary before the end of a text on, what its tokens cover lies side by side
up to the end. Attributes stand only in start tags, one behind the other between the name and the end.
All offsets lie between characters, and each expression that the machine reads has a brace open. -/
theorem tokensFrom_lossless {s : String} {start : ℕ} (hstart : isBoundary s start = true) :
    Tiles start (size s) (extents (size s) (tokensFrom s start)) ∧
      (∀ before r after, tokensFrom s start = before ++ .openName r :: after →
        InOrder r.stop (tagEnd (size s) after) (tagAttributes after)) ∧
      (∀ before t after, tokensFrom s start = before ++ t :: after → t.attribute?.isSome = true →
        ∃ outer r inner, before = outer ++ .openName r :: inner ∧
          inner.all Token.isInTag = true) ∧
      (∀ t ∈ tokensFrom s start, t.OnEdges s) ∧
      ∀ mode i, Mode.Reached (octets s) start mode i →
        (∃ before, tokensFrom s start = before ++ mode.run i ((octets s).drop i)) ∧
          ∀ braces ∈ mode.braces?, 0 < braces.depth := by
  have hle := le_size_of_isBoundary hstart
  have hstream := tokensFrom_stream s start
  rw [Nat.min_eq_left hle] at hstream
  have hsize := length_octets s
  refine ⟨?_, fun before r after hts => ?_, fun before t after hts ht => ?_,
    tokensFrom_onEdges hstart, fun mode i hreached => ⟨?_, hreached.balanced⟩⟩
  · exact hsize ▸ hstream.tiles
  · obtain ⟨name, htag⟩ := hstream.behind_openName hts
    exact hsize ▸ htag.inOrder
  · have hends := hstream.endsInTag ht hts
    cases hends with
    | later outer hinner => exact ⟨outer, _, _, rfl, hinner⟩
  · unfold tokensFrom
    rw [Nat.min_eq_left hle]
    exact hreached.run_eq

/-- Behind the accented letter a start tag and an expression follow. -/
theorem tokensFrom_lossless_accented :
    isBoundary "é<a b='ü'/>{x}" 2 = true ∧ Tiles 2 16 [⟨2, 13⟩, ⟨13, 16⟩] ∧
      extents 16 (tokensFrom "é<a b='ü'/>{x}" 2) = [⟨2, 13⟩, ⟨13, 16⟩] := by
  have hstart : isBoundary "é<a b='ü'/>{x}" 2 = true := by decide +kernel
  have hextents : extents 16 (tokensFrom "é<a b='ü'/>{x}" 2) = [⟨2, 13⟩, ⟨13, 16⟩] := by
    decide +kernel
  exact ⟨hstart, hextents ▸ (tokensFrom_lossless hstart).1, hextents⟩

end Polyglot.Markup
