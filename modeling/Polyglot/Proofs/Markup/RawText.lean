import Polyglot.Proofs.Markup.Nesting
import Polyglot.Proofs.Markup.Tiling

/-!
# Raw text

The content of a raw text element is opaque: behind its start tag comes the text up to the first end tag
of the element, and then that end tag, or the end of the text (`tokensFrom_rawText`). What is reported
later stands behind that text, since a stream never goes back (`Stream.le_edges`).
-/

namespace Polyglot.Markup

open Text

variable {cs name : List Char} {ts inner : List Token} {p : Site} {i k : ℕ}

/-- At `q` an end tag of an element with this name begins: `</`, the name in any case, and then what
ends a name or nothing at all. -/
def RawEndAt (s name : String) (q : ℕ) : Prop :=
  ∃ spelled rest, (octets s).drop q = '<' :: '/' :: (spelled ++ rest) ∧
    spelled.map Char.toLower = name.toList.map Char.toLower ∧
    ∀ c ∈ rest.head?, c = '/' ∨ c = '>' ∨ isAsciiBlank c = true

theorem endsTagSection_iff {c : Char} :
    endsTagSection c = true ↔ c = '/' ∨ c = '>' ∨ isAsciiBlank c = true := by
  rw [endsTagSection, Bool.or_eq_true, Bool.or_eq_true, beq_iff_eq, beq_iff_eq, or_assoc]

theorem rawEndAt_iff {s name : String} {q : ℕ} :
    RawEndAt s name q ↔ EndTagAt (octets s) name.toList q := by
  constructor
  · rintro ⟨spelled, rest, hdrop, hlower, hbehind⟩
    have hlength : spelled.length = name.toList.length := by
      simpa only [List.length_map] using congrArg List.length hlower
    refine ⟨'/' :: (spelled ++ rest), hdrop, ?_⟩
    rw [beginsEndTag, ← hlength, List.take_left, List.drop_left, hlower, beq_self_eq_true, Bool.true_and,
      Option.all_eq_true]
    exact fun c hc => endsTagSection_iff.2 (hbehind c hc)
  · intro h
    obtain ⟨after, hslash, -, hlower, hbehind⟩ := h.exists_drop
    obtain ⟨rest, hdrop, -⟩ := h
    have hrest := drop_succ_of_drop hdrop
    rw [hslash] at hrest
    refine ⟨after.take name.toList.length, after.drop name.toList.length, ?_, hlower, fun c hc => ?_⟩
    · rw [hdrop, ← hrest, List.take_append_drop]
    · exact endsTagSection_iff.1 ((Option.all_eq_true ..).1 hbehind c hc)

/-! ## Streams go forward -/

/-- How far the tokens before a site reach. -/
def Site.offset : Site → ℕ
  | .outside i | .tag _ i | .raw _ i | .rawEnd _ i => i

theorem offset_content (name : List Char) (i : ℕ) : (Site.content name i).offset = i := by
  unfold Site.content
  split_ifs <;> rfl

theorem Value.rawSpan_around (v : Value) :
    v.rawSpan.start ≤ v.span.start ∧ v.span.stop ≤ v.rawSpan.stop := by
  unfold rawSpan
  split
  · exact ⟨le_rfl, le_rfl⟩
  · exact ⟨Nat.sub_le _ _, Nat.le_succ _⟩

theorem Stream.offset_le (h : Stream cs p ts) : p.offset ≤ cs.length := by
  induction h with
  | finish | finishRaw => exact le_rfl
  | finishTag hi => exact hi
  | error _ _ _ ih => exact ih
  | openEnd hle hlt _ _ => exact hle.trans hlt.le
  | attributeValue hle hr hlen _ _ =>
    obtain ⟨hstart, hstop⟩ := Value.rawSpan_around ⟨_, _⟩
    exact hle.trans (hstart.trans (hr.trans (hstop.trans hlen)))
  | _ =>
    simp only [Site.offset] at *
    omega

theorem le_edges_cons {t : Token} {n : ℕ} (ht : ∀ e ∈ t.edges n, i ≤ e) (hle : i ≤ k)
    (hts : ∀ t ∈ ts, ∀ e ∈ t.edges n, k ≤ e) : ∀ u ∈ t :: ts, ∀ e ∈ u.edges n, i ≤ e :=
  List.forall_mem_cons.2 ⟨ht, fun u hu e he => hle.trans (hts u hu e he)⟩

/-- A stream never goes back: all offsets that it reports lie behind its site. -/
theorem Stream.le_edges (h : Stream cs p ts) :
    ∀ t ∈ ts, ∀ e ∈ t.edges cs.length, p.offset ≤ e := by
  induction h with
  | finish | finishTag | finishRaw => simp [Token.edges]
  | error _ he hrest ih =>
    refine le_edges_cons ?_ le_rfl ih
    simpa [Token.edges, he] using hrest.offset_le
  | @leaf t i j _ ht hlt _ _ ih =>
    refine le_edges_cons ?_ hlt.le ih
    cases t <;> cases ht
    all_goals simpa [Token.edges, Site.offset] using hlt.le
  | @openName i j _ _ hlt _ _ ih =>
    refine le_edges_cons ?_ hlt.le ih
    simpa [Token.edges, Site.offset] using hlt.le
  | @attributeName _ i a b _ hle hlt _ _ ih | @shorthand _ i a b _ hle hlt _ _ ih =>
    have hi : i ≤ b := by omega
    refine le_edges_cons ?_ hi ih
    simpa [Token.edges, Site.offset] using ⟨hle, hi⟩
  | @attributeValue _ i kind r _ hle hr _ _ ih =>
    obtain ⟨hstart, hstop⟩ := Value.rawSpan_around ⟨kind, r⟩
    have hi := hle.trans (hstart.trans (hr.trans hstop))
    refine le_edges_cons ?_ hi ih
    simpa [Token.edges, Site.offset] using
      ⟨hle, hle.trans hstart, hle.trans (hstart.trans hr), hi⟩
  | @openEnd name i j _ hle _ _ ih =>
    rw [offset_content] at ih
    refine le_edges_cons ?_ (Nat.le_succ_of_le hle) ih
    simpa [Token.edges, Site.offset] using ⟨hle, Nat.le_succ_of_le hle⟩
  | @selfClose name i j _ hle _ _ ih =>
    refine le_edges_cons ?_ (Nat.le_succ_of_le hle) ih
    simpa [Token.edges, Site.offset] using ⟨hle, Nat.le_succ_of_le hle⟩
  | @closeTag i name stop _ hstart hle hstop hlen _ ih =>
    have hi : i ≤ min (stop + 1) cs.length := by omega
    refine le_edges_cons ?_ hi ih
    simp only [Token.edges, Site.offset, List.forall_mem_cons]
    exact ⟨le_rfl, by omega, by omega, by omega, hi, List.forall_mem_nil _⟩
  | @rawText _ i j _ _ hle _ _ _ _ ih =>
    refine List.forall_mem_append.2 ⟨?_, fun t ht e he => hle.trans (ih t ht e he)⟩
    unfold Markup.pendingText
    split_ifs
    · simpa [Token.edges, Site.offset] using hle
    · exact List.forall_mem_nil _
  | @rawClose _ i j stop _ _ _ _ hj hstop hlen _ ih =>
    have hi : i ≤ min (stop + 1) cs.length := by omega
    refine le_edges_cons ?_ hi ih
    simp only [Token.edges, Site.offset, List.forall_mem_cons]
    exact ⟨le_rfl, by omega, by omega, by omega, hi, List.forall_mem_nil _⟩

/-! ## The content of an element -/

/-- Behind the attributes of a start tag its end follows, and then the content of the element. -/
theorem Stream.behind_inTag (h : Stream cs (.tag name k) (inner ++ .openEnd i :: ts))
    (hinner : inner.all Token.isInTag = true) : Stream cs (.content name (i + 1)) ts := by
  generalize hp : Site.tag name k = p at h
  generalize hall : inner ++ .openEnd i :: ts = all at h
  induction h generalizing inner k with
  | error _ _ _ ih | attributeName _ _ _ _ ih | attributeValue _ _ _ _ ih | shorthand _ _ _ _ ih =>
    cases hp
    cases inner with
    | nil => cases hall
    | cons t inner =>
      cases hall
      exact ih (List.all_eq_true.2 fun t ht =>
        List.all_eq_true.1 hinner t (List.mem_cons_of_mem _ ht)) rfl rfl
  | openEnd _ _ hrest =>
    cases hp
    cases inner with
    | nil =>
      cases hall
      exact hrest
    | cons t inner =>
      cases hall
      cases hinner
  | finishTag =>
    obtain ⟨-, hend⟩ | ⟨-, hend⟩ := List.append_eq_singleton_iff.1 hall <;> cases hend
  | selfClose =>
    cases inner <;> cases hall
    cases hinner
  | _ => cases hp

/-- Raw text reaches to the first end tag of its element, or to the end of the text. -/
theorem Stream.raw_eq (h : Stream cs (.raw name i) ts) :
    ∃ j rest, i ≤ j ∧ j ≤ cs.length ∧ (∀ q, i ≤ q → q < j → ¬ EndTagAt cs name q) ∧
      (j = cs.length ∨ EndTagAt cs name j) ∧ ts = Markup.pendingText i j ++ rest ∧
      Stream cs (.rawEnd name j) rest := by
  cases h with
  | error hraw => cases hraw
  | rawText _ hle hlen hnone hor hrest => exact ⟨_, _, hle, hlen, hnone, hor, rfl, hrest⟩

/-- Where raw text ends the text ends, or an end tag follows. -/
theorem Stream.rawEnd_eq (h : Stream cs (.rawEnd name i) ts) :
    i = cs.length ∧ ts = [.finish] ∨
      EndTagAt cs name i ∧ ∃ r stop more, ts = .closeTag i r stop :: more := by
  cases h with
  | error hraw => cases hraw
  | finishRaw => exact .inl ⟨rfl, rfl⟩
  | rawClose _ hat => exact .inr ⟨hat, _, _, _, rfl⟩

/-- **Raw text.** A start tag ends behind its name and its attributes. If the name is that of a raw text
element, then the text behind the tag comes next, up to the least offset at which an end tag of the
element begins or the text ends; and there that end tag or the end of the text is reported, and nothing
before it. -/
theorem tokensFrom_rawText {s : String} {start i : ℕ} {before after : List Token}
    (hts : tokensFrom s start = before ++ .openEnd i :: after) :
    ∃ outer r inner, before = outer ++ .openName r :: inner ∧ inner.all Token.isInTag = true ∧
      (spelling s r ∈ rawTextElements → ∃ p rest,
        IsLeast {q | i + 1 ≤ q ∧ (RawEndAt s (spelling s r) q ∨ q = size s)} p ∧
        after = pendingText (i + 1) p ++ rest ∧
        (p = size s ∧ rest = [.finish] ∨
          RawEndAt s (spelling s r) p ∧ ∃ name stop more, rest = .closeTag p name stop :: more) ∧
        ∀ t ∈ rest, ∀ e ∈ t.edges (size s), p ≤ e) := by
  have hstream := tokensFrom_stream s start
  rw [hts] at hstream
  obtain ⟨q, hq, hends⟩ := hstream.exists_site
  cases hends (hq.exists_tag rfl) with
  | @later _ outer inner r hinner =>
    refine ⟨outer, r, inner, rfl, hinner, fun hraw => ?_⟩
    rw [List.append_assoc, List.cons_append] at hstream
    obtain ⟨o, ho, -⟩ := hstream.exists_site
    obtain ⟨hle, hstop, htag⟩ := ho.tag_of_openName
    rw [length_octets] at hstop
    have hname : isRawTextName (spelling s r).toList = true :=
      List.any_eq_true.2 ⟨_, hraw, beq_self_eq_true _⟩
    have hcontent := htag.behind_inTag hinner
    rw [← spelling_of_raw hle hstop (.inl hname), Site.content, if_pos hname] at hcontent
    obtain ⟨p, rest, hfrom, hlen, hnone, hor, hafter, hrest⟩ := hcontent.raw_eq
    rw [length_octets] at hlen hor
    have hedges := hrest.le_edges
    rw [length_octets] at hedges
    have hend := hrest.rawEnd_eq
    rw [length_octets, ← rawEndAt_iff] at hend
    refine ⟨p, rest, ⟨⟨hfrom, hor.symm.imp_left rawEndAt_iff.2⟩, fun q hq => ?_⟩, hafter, hend, hedges⟩
    obtain ⟨hfrom, hat | rfl⟩ := hq
    · by_contra hlt
      exact hnone q hfrom (Nat.lt_of_not_le hlt) (rawEndAt_iff.1 hat)
    · exact hlen

/-- Neither the braces, the comment nor the longer name ends the title, the upper case does. -/
theorem tokensFrom_rawText_title :
    let s := "<p><title a=\x7bb\x7d>\x7bx<!--</titles></TITLE >\x7by\x7d"
    tokensFrom s 3 = [.openName ⟨4, 9⟩, .attributeName ⟨10, 11⟩, .attributeValue .expression ⟨13, 14⟩] ++
        .openEnd 15 :: [.text ⟨16, 31⟩, .closeTag 31 ⟨33, 38⟩ 39, .expression ⟨40, 43⟩, .finish] ∧
      IsLeast {q | 16 ≤ q ∧ (RawEndAt s "title" q ∨ q = size s)} 31 := by
  intro s
  have hts : tokensFrom s 3 =
      [.openName ⟨4, 9⟩, .attributeName ⟨10, 11⟩, .attributeValue .expression ⟨13, 14⟩] ++
        .openEnd 15 :: [.text ⟨16, 31⟩, .closeTag 31 ⟨33, 38⟩ 39, .expression ⟨40, 43⟩, .finish] := by
    decide +kernel
  refine ⟨hts, ?_⟩
  obtain ⟨outer, r, inner, hbefore, -, hraw⟩ := tokensFrom_rawText hts
  obtain rfl : r = ⟨4, 9⟩ := by
    rcases outer with _ | ⟨_, outer⟩
    · cases hbefore
      rfl
    · have hmem : Token.openName r ∈ outer ++ .openName r :: inner :=
        List.mem_append_right _ List.mem_cons_self
      have htail : _ = outer ++ .openName r :: inner := (List.cons.inj hbefore).2
      rw [← htail] at hmem
      simp at hmem
  have hname : spelling s ⟨4, 9⟩ = "title" := by decide +kernel
  rw [hname] at hraw
  obtain ⟨p, rest, hleast, hafter, hend, -⟩ := hraw (by decide)
  obtain rfl : p = 31 := by
    unfold pendingText at hafter
    split_ifs at hafter
    · cases hafter
      rfl
    · rcases hend with ⟨-, rfl⟩ | ⟨-, _, _, _, rfl⟩ <;> cases hafter
  exact hleast

end Polyglot.Markup
