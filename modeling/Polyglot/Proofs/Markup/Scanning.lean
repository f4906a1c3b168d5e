import Polyglot.Proofs.Markup.Edges
import Polyglot.Proofs.Markup.Source
import Polyglot.Proofs.Text.Escape

/-!
# The tokens of written markup

The machine reports the tokens that a well-formed source stands for, whatever follows the source
(`Source.run_written`). It is in text before each piece of the source and behind it, and before an
attribute between the pieces of a start tag, so the pieces are taken one by one.
-/

namespace Polyglot.Markup

open Text

/-! ## Tokens -/

def SourceAttribute.tokens (a : SourceAttribute) (i : ℕ) : List Token :=
  .attributeName (.withLength (i + 1) (size a.name)) :: match a.value with
    | none => []
    | some v => [.attributeValue .double (.withLength (i + 1 + size a.name + 2) (size v))]

def attributeTokens : List SourceAttribute → ℕ → List Token
  | [], _ => []
  | a :: as, i => a.tokens i ++ attributeTokens as (i + size a.written)

def SourceTag.tokens (t : SourceTag) (i : ℕ) : List Token :=
  .openName (.withLength (i + 1) (size t.name)) :: attributeTokens t.attributes (i + 1 + size t.name)

def SourceLeaf.token : SourceLeaf → Span → Token
  | text _ => .text
  | comment _ => .comment
  | expression _ => .expression

/-- The tokens of a source whose text begins at offset `i`. -/
def Source.tokens : Source → ℕ → List Token
  | nil, _ => []
  | leaf x rest, i => x.token (.withLength i (size x.written)) :: rest.tokens (i + size x.written)
  | lone selfCloses tag rest, i =>
    let stop := i + size tag.written
    tag.tokens i ++ (if selfCloses then .selfClose (stop + 2) else .openEnd stop) ::
      rest.tokens (stop + size (loneEnd selfCloses))
  | element tag children rest, i =>
    let stop := i + size tag.written
    let endTag := stop + 1 + size children.written
    tag.tokens i ++ .openEnd stop :: (children.tokens (stop + 1) ++
      .closeTag endTag (.withLength (endTag + 2) (size tag.name)) (endTag + 2 + size tag.name) ::
        rest.tokens (endTag + size tag.writtenEnd))

/-! ## Runs -/

variable {cs ds rest name : List Char} {c d : Char} {i j start : ℕ} {mode mode' : Mode}
  {as : List SourceAttribute} {ts : List Token}

namespace Mode

def isComment : Mode → Bool
  | comment _ => true
  | _ => false

theorem run_cons (h : mode.isComment = false) (i : ℕ) (c : Char) (rest : List Char) :
    mode.run i (c :: rest) = (mode.step i c rest).2 ++ (mode.step i c rest).1.run (i + 1) rest := by
  rw [run]
  rintro lt - rfl
  cases h

theorem run_of_step (h : mode.isComment = false) (hstep : mode.step i c rest = (mode', ts)) :
    mode.run i (c :: rest) = ts ++ mode'.run (i + 1) rest := by
  rw [run_cons h, hstep]

/-- An octet without a report. -/
theorem run_of_silent (h : mode.isComment = false) (hstep : mode.step i c rest = (mode', [])) :
    mode.run i (c :: rest) = mode'.run (i + 1) rest := run_of_step h hstep

/-- A mode that takes octets without a report is still there behind them. -/
theorem run_append {f : List Char → Mode} (h : ∀ cs, (f cs).isComment = false)
    (hstep : ∀ cs i rest, ∀ d ∈ ds, (f cs).step i d rest = (f (cs ++ [d]), [])) (cs : List Char)
    (i : ℕ) (rest : List Char) :
    (f cs).run i (ds ++ rest) = (f (cs ++ ds)).run (i + ds.length) rest := by
  induction ds generalizing cs i with
  | nil => simp
  | cons d ds ih =>
    rw [List.cons_append, run_of_silent (h cs) (hstep cs i _ d List.mem_cons_self),
      ih fun cs i rest d hd => hstep cs i rest d (List.mem_cons_of_mem _ hd)]
    simp only [List.append_assoc, List.singleton_append, List.length_cons]
    congr 1
    omega

/-- A mode that stays as it is. -/
theorem run_same (h : mode.isComment = false) (hstep : ∀ i rest, ∀ d ∈ ds, mode.step i d rest = (mode, []))
    (i : ℕ) (rest : List Char) : mode.run i (ds ++ rest) = mode.run (i + ds.length) rest :=
  run_append (f := fun _ => mode) (fun _ => h) (fun _ => hstep) [] i rest

end Mode

/-! ## Texts -/

/-- What ends a text: the end, or the beginning of another piece. -/
def EndsText (rest : List Char) : Prop := ∀ c, rest.head? = some c → c = '<' ∨ c = '\x7b'

theorem pendingText_self (i : ℕ) : pendingText i i = [] := if_neg (lt_irrefl i)

theorem Mode.step_lt (i : ℕ) (rest : List Char) :
    (Mode.text i).step i '<' rest = (.beforeName i, []) := by
  simp [step, stepText, pendingText_self]

theorem Mode.run_text (hds : ∀ d ∈ ds, d ≠ '<' ∧ d ≠ '\x7b') (start i : ℕ) (rest : List Char) :
    (Mode.text start).run i (ds ++ rest) = (Mode.text start).run (i + ds.length) rest := by
  refine run_same rfl (fun i rest d hd => ?_) i rest
  obtain ⟨hlt, hbrace⟩ := hds d hd
  exact (if_neg hlt).trans (if_neg hbrace)

/-- A text is reported where it ends. -/
theorem Mode.run_text_of_endsText (hlt : start < i) (h : EndsText rest) :
    (Mode.text start).run i rest = .text ⟨start, i⟩ :: (Mode.text i).run i rest := by
  have hpending : pendingText start i = [.text ⟨start, i⟩] := if_pos hlt
  have hnone := pendingText_self i
  rcases rest with _ | ⟨c, rest⟩
  · simp [run, atEnd, hpending, hnone]
  · rw [run_cons rfl, run_cons rfl]
    rcases h c rfl with rfl | rfl
    · simp [step, stepText, hpending, hnone]
    · simp [step, stepText, hpending, hnone]

/-! ## Expressions and comments -/

theorem Mode.run_expression (hds : ∀ d ∈ ds, d ∉ ['\x7b', '\x7d', '"', '\'', '\x60'])
    (i : ℕ) (rest : List Char) : (Mode.text i).run i ('\x7b' :: (ds ++ '\x7d' :: rest)) =
      .expression ⟨i, i + (ds.length + 2)⟩ ::
        (Mode.text (i + (ds.length + 2))).run (i + (ds.length + 2)) rest := by
  have hstep (j : ℕ) (rest : List Char) : ∀ d ∈ ds,
      (Mode.textExpression i .start).step j d rest = (.textExpression i .start, []) := by
    intro d hd
    have hplain : Braces.start.step? d = some .start := by
      have hd := hds d hd
      simp only [List.mem_cons, List.not_mem_nil, or_false, not_or] at hd
      simp [Braces.step?, Braces.start, hd]
    simp only [step, hplain]
  have hopen (rest : List Char) : (Mode.text i).step i '\x7b' rest =
      (.textExpression i .start, []) := by simp [step, stepText, pendingText_self]
  have hclose (j : ℕ) : (Mode.textExpression i .start).step j '\x7d' rest =
      (.text (j + 1), [.expression ⟨i, j + 1⟩]) := rfl
  have hend : i + 1 + ds.length + 1 = i + (ds.length + 2) := by omega
  rw [run_of_silent rfl (hopen _), run_same rfl hstep, run_of_step rfl (hclose _), hend,
    List.singleton_append]

/-- A comment goes on up to the first end of one. -/
theorem Mode.run_comment_body (hds : ¬ "-->".toList <:+: ds) (lt i : ℕ) (rest : List Char) :
    (Mode.comment lt).run i (ds ++ '-' :: '-' :: '>' :: rest) =
      .comment ⟨lt, i + (ds.length + 3)⟩ ::
        (Mode.text (i + (ds.length + 3))).run (i + (ds.length + 3)) rest := by
  induction ds generalizing i with
  | nil =>
    rw [List.nil_append, run]
    simp
  | cons d ds ih =>
    have hmore : ¬ "-->".toList <:+: ds := fun h => hds (h.trans (List.suffix_cons d ds).isInfix)
    have hnot : ∀ more, d :: (ds ++ '-' :: '-' :: '>' :: rest) ≠ '-' :: '-' :: '>' :: more := by
      intro more heq
      rcases ds with _ | ⟨e, _ | ⟨f, ds⟩⟩
      · simp at heq
      · simp at heq
      · simp only [List.cons_append, List.cons.injEq] at heq
        obtain ⟨rfl, rfl, rfl, -⟩ := heq
        exact hds (List.prefix_append ['-', '-', '>'] ds).isInfix
    rw [List.cons_append, run]
    · simp only [step, List.nil_append]
      rw [ih hmore, List.length_cons]
      have hend : i + 1 + (ds.length + 3) = i + (ds.length + 1 + 3) := by omega
      rw [hend]
    · rintro - more - hd htail
      exact hnot more (by rw [hd, htail])

theorem Mode.run_comment (hds : ¬ "-->".toList <:+: ds) (i : ℕ) (rest : List Char) :
    (Mode.text i).run i ('<' :: '!' :: '-' :: '-' :: (ds ++ '-' :: '-' :: '>' :: rest)) =
      .comment ⟨i, i + (ds.length + 7)⟩ ::
        (Mode.text (i + (ds.length + 7))).run (i + (ds.length + 7)) rest := by
  have hend : i + 4 + (ds.length + 3) = i + (ds.length + 7) := by omega
  have hbang (rest : List Char) : (beforeName i).step (i + 1) '!' rest = (beforeDeclaration i, []) := rfl
  have hdash (rest : List Char) : (beforeDeclaration i).step (i + 1 + 1) '-' rest =
      (beforeComment i, []) := rfl
  have hdash' (rest : List Char) : (beforeComment i).step (i + 1 + 1 + 1) '-' rest =
      (comment i, []) := rfl
  rw [run_of_silent rfl (step_lt i _), run_of_silent rfl (hbang _), run_of_silent rfl (hdash _),
    run_of_silent rfl (hdash' _), run_comment_body hds, hend]

/-! ## Tags -/

/-- What may stand behind a piece of a start tag: its end, or a blank and more of it. -/
def GoesOn (rest : List Char) : Prop :=
  (∃ more, rest = '>' :: more) ∨
    ∃ c more, rest = ' ' :: c :: more ∧ c ≠ '=' ∧ isAsciiBlank c = false

/-- An octet that may stand in the name of an attribute. -/
def IsNameOctet (d : Char) : Prop := d ≠ '=' ∧ d ≠ '\x7b' ∧ endsTagSection d = false

theorem GoesOn.exists_cons (h : GoesOn rest) :
    ∃ c more, rest = c :: more ∧ endsTagSection c = true := by
  rcases h with ⟨more, rfl⟩ | ⟨c, more, rfl, -, -⟩
  · exact ⟨_, _, rfl, by decide⟩
  · exact ⟨_, _, rfl, by decide⟩

namespace Mode

theorem run_openName (hds : ∀ d ∈ ds, endsTagSection d = false) (hrest : GoesOn rest)
    (start : ℕ) (spelled : List Char) (i : ℕ) :
    (openName start spelled).run i (ds ++ rest) = .openName ⟨start, i + ds.length⟩ ::
      (beforeAttribute (spelled.reverse ++ ds)).run (i + ds.length) rest := by
  have hstep (cs : List Char) (i : ℕ) (rest : List Char) : ∀ d ∈ ds,
      (openName start cs.reverse).step i d rest = (openName start (cs ++ [d]).reverse, []) :=
    fun d hd => by simp [step, hds d hd]
  have hname := run_append (f := fun cs => .openName start cs.reverse) (fun _ => rfl) hstep
    spelled.reverse i rest
  rw [List.reverse_reverse] at hname
  obtain ⟨c, more, rfl, hc⟩ := hrest.exists_cons
  rw [hname, run_cons rfl, run_cons rfl]
  simp only [step, hc, if_true, emitting, List.reverse_reverse, List.cons_append, List.nil_append]

/-- The name of an attribute is reported with the octet behind it. -/
theorem run_attributeName (hne : ds ≠ []) (hds : ∀ d ∈ ds, IsNameOctet d)
    (hc : c = '=' ∨ endsTagSection c = true) (name : List Char) (i : ℕ) (rest : List Char) :
    (beforeAttribute name).run i (' ' :: (ds ++ c :: rest)) =
      .attributeName (.withLength (i + 1) ds.length) ::
        (afterAttributeName name).run (i + 1 + ds.length) (c :: rest) := by
  obtain ⟨d, ds, rfl⟩ := List.exists_cons_of_ne_nil hne
  obtain ⟨-, hbrace, hsection⟩ := hds d List.mem_cons_self
  obtain ⟨⟨hslash, hgt⟩, hblank⟩ : (d ≠ '/' ∧ d ≠ '>') ∧ isAsciiBlank d = false := by
    simpa [endsTagSection] using hsection
  have hspace (rest : List Char) : (beforeAttribute name).step i ' ' rest = (beforeAttribute name, []) :=
    rfl
  have hbegin (rest : List Char) : (beforeAttribute name).step (i + 1) d rest =
      (attributeName name (i + 1), []) := by
    simp [step, stepAttribute, hslash, hgt, hbrace, hblank]
  have hstep (j : ℕ) (rest : List Char) : ∀ d ∈ ds,
      (attributeName name (i + 1)).step j d rest = (attributeName name (i + 1), []) := by
    intro d hd
    obtain ⟨heq, -, hsection⟩ := hds d (List.mem_cons_of_mem _ hd)
    simp [step, heq, hsection]
  have hends : (c = '=' || endsTagSection c) = true := by simpa using hc
  rw [run_of_silent rfl (hspace _), List.cons_append, run_of_silent rfl (hbegin _),
    run_same rfl hstep, run_cons rfl, run_cons rfl]
  have hstop : i + 1 + 1 + ds.length = i + 1 + (d :: ds).length := by
    rw [List.length_cons]
    omega
  simp only [step, hends, if_true, emitting, List.cons_append, List.nil_append, hstop, Span.withLength]

/-- Behind the name of an attribute a value may come, but else it is as before an attribute. -/
theorem run_afterAttributeName (hrest : GoesOn rest) (name : List Char) (i : ℕ) :
    (afterAttributeName name).run i rest = (beforeAttribute name).run i rest := by
  have hstep (i : ℕ) {c : Char} (hne : c ≠ '=') (hblank : isAsciiBlank c = false)
      (rest : List Char) :
      (afterAttributeName name).step i c rest = (beforeAttribute name).step i c rest := by
    simp [step, stepAfterAttributeName, hne, hblank]
  rcases hrest with ⟨more, rfl⟩ | ⟨c, more, rfl, hne, hblank⟩
  · rw [run_cons rfl, run_cons rfl, hstep i (by decide) (by decide)]
  · have hafter : (afterAttributeName name).step i ' ' (c :: more) = (afterAttributeName name, []) :=
      rfl
    have hbefore : (beforeAttribute name).step i ' ' (c :: more) = (beforeAttribute name, []) := rfl
    rw [run_of_silent rfl hafter, run_of_silent rfl hbefore, run_cons rfl, run_cons rfl,
      hstep (i + 1) hne hblank]

theorem run_doubleQuoted (hds : '"' ∉ ds) (name : List Char) (i : ℕ) (rest : List Char) :
    (afterAttributeName name).run i ('=' :: '"' :: (ds ++ '"' :: rest)) =
      .attributeValue .double (.withLength (i + 2) ds.length) ::
        (beforeAttribute name).run (i + 2 + ds.length + 1) rest := by
  have hstep (j : ℕ) (rest : List Char) : ∀ d ∈ ds,
      (doubleQuoted name (i + 2)).step j d rest = (doubleQuoted name (i + 2), []) :=
    fun d hd => if_neg (by rintro rfl; exact hds hd)
  have hequals (rest : List Char) : (afterAttributeName name).step i '=' rest =
      (beforeValue name, []) := rfl
  have hopen (rest : List Char) : (beforeValue name).step (i + 1) '"' rest =
      (doubleQuoted name (i + 2), []) := rfl
  have hclose (j : ℕ) : (doubleQuoted name (i + 2)).step j '"' rest =
      (beforeAttribute name, [.attributeValue .double ⟨i + 2, j⟩]) := rfl
  rw [run_of_silent rfl (hequals _), run_of_silent rfl (hopen _), run_same rfl hstep,
    run_of_step rfl (hclose _)]
  rfl

theorem run_beforeAttribute_openEnd (name : List Char) (i : ℕ) (rest : List Char) :
    (beforeAttribute name).run i ('>' :: rest) =
      .openEnd i :: (afterStartTag name i).run (i + 1) rest := by
  rw [run_cons rfl]
  rfl

theorem run_beforeAttribute_selfClose (name : List Char) (i : ℕ) (rest : List Char) :
    (beforeAttribute name).run i (' ' :: '/' :: '>' :: rest) =
      .selfClose (i + 2) :: (text (i + 3)).run (i + 3) rest := by
  rw [run_cons rfl, run_cons rfl, run_cons rfl]
  rfl

/-- A start tag up to its end. -/
theorem run_startTag (hc : c.isAlpha = true) (hds : ∀ d ∈ ds, endsTagSection d = false)
    (hrest : GoesOn rest) (i : ℕ) :
    (text i).run i ('<' :: c :: (ds ++ rest)) = .openName (.withLength (i + 1) (ds.length + 1)) ::
      (beforeAttribute (c :: ds)).run (i + 1 + (ds.length + 1)) rest := by
  have hne : c ≠ '!' := by
    rintro rfl
    exact absurd hc (by decide)
  have hfirst (rest : List Char) : (beforeName i).step (i + 1) c rest = (openName (i + 1) [c], []) := by
    simp [step, hne, hc]
  have hstop : i + 1 + 1 + ds.length = i + 1 + (ds.length + 1) := by omega
  rw [run_of_silent rfl (step_lt i _), run_of_silent rfl (hfirst _), run_openName hds hrest, hstop]
  rfl

/-- An end tag. -/
theorem run_endTag (hc : c ≠ '>' ∧ isAsciiBlank c = false)
    (hds : ∀ d ∈ ds, d ≠ '>' ∧ isAsciiBlank d = false) (i : ℕ) (rest : List Char) :
    (text i).run i ('<' :: '/' :: c :: (ds ++ '>' :: rest)) =
      .closeTag i (.withLength (i + 2) (ds.length + 1)) (i + 2 + (ds.length + 1)) ::
        (text (i + (ds.length + 4))).run (i + (ds.length + 4)) rest := by
  have hslash (rest : List Char) : (beforeName i).step (i + 1) '/' rest = (beforeCloseName i, []) := rfl
  have hfirst (rest : List Char) : (beforeCloseName i).step (i + 1 + 1) c rest =
      (closeName i (i + 2), []) := by
    simp [step, hc]
  have hstep (j : ℕ) (rest : List Char) : ∀ d ∈ ds,
      (closeName i (i + 2)).step j d rest = (closeName i (i + 2), []) := by
    intro d hd
    simp [step, hds d hd]
  have hgt (j : ℕ) : (closeName i (i + 2)).step j '>' rest =
      (text (j + 1), [.closeTag i ⟨i + 2, j⟩ j]) := rfl
  have hstop : i + 1 + 1 + 1 + ds.length = i + 2 + (ds.length + 1) := by omega
  have hend : i + 2 + (ds.length + 1) + 1 = i + (ds.length + 4) := by omega
  rw [run_of_silent rfl (step_lt i _), run_of_silent rfl (hslash _), run_of_silent rfl (hfirst _),
    run_same rfl hstep, run_of_step rfl (hgt _), hstop, hend]
  rfl

end Mode

/-! ## Octets of what is written -/

theorem endsTagSection_eq_false (h : d.isAlphanum = true) : endsTagSection d = false := by
  have hblank : isAsciiBlank d = false := by
    unfold isAsciiBlank
    split
    case h_6 => rfl
    all_goals exact absurd h (by decide)
  have hslash : d ≠ '/' := ne_of_apply h (by decide)
  have hgt : d ≠ '>' := ne_of_apply h (by decide)
  simp [endsTagSection, hblank, hslash, hgt]

theorem isNameOctet_of_isAlpha (h : d.isAlpha = true) : IsNameOctet d :=
  ⟨ne_of_apply h (by decide), ne_of_apply h (by decide),
    endsTagSection_eq_false (by rw [Char.isAlphanum, h, Bool.true_or])⟩

theorem isNameOctet_of_not_ascii (h : ¬ IsAsciiOctet d) : IsNameOctet d := by
  refine ⟨?_, ?_, Bool.eq_false_iff.2 fun hends => h (Mode.isAsciiOctet_of_endsTagSection hends)⟩
  · rintro rfl
    exact h (by decide)
  · rintro rfl
    exact h (by decide)

theorem SourceAttribute.WellFormed.isNameOctet {a : SourceAttribute} (h : a.WellFormed) :
    ∀ d ∈ octets a.name, IsNameOctet d := by
  intro d hd
  by_cases hascii : IsAsciiOctet d
  · have hletter := List.all_eq_true.1 h.letters d (mem_toList_of_mem_octets hascii hd)
    have hlt : ¬ 0x80 ≤ d.toNat := Nat.not_le.2 hascii
    refine isNameOctet_of_isAlpha ?_
    simpa [isLetter, hlt] using hletter
  · exact isNameOctet_of_not_ascii hascii

theorem IsTagName.octets_eq {name : String} (h : IsTagName name) : octets name = name.toList := by
  obtain ⟨c, cs, hname, hc, hcs⟩ := h
  refine octets_eq_toList fun d hd => isAsciiOctet_of_isAlphanum ?_
  rw [hname] at hd
  rcases List.mem_cons.1 hd with rfl | hd
  · rw [Char.isAlphanum, hc, Bool.true_or]
  · exact List.all_eq_true.1 hcs d hd

theorem isRawTextName_eq_false {name : String} (h : name ∉ rawTextElements) :
    isRawTextName name.toList = false := by
  refine List.any_eq_false.2 fun e he heq => h ?_
  rw [beq_iff_eq] at heq
  exact String.toList_injective heq ▸ he

/-! ## Start tags -/

theorem octets_bare (name : String) : octets (SourceAttribute.mk name none).written =
    ' ' :: octets name := by
  have hblank : octets " " = [' '] := by decide
  simp only [SourceAttribute.written, String.append_empty, octets_append, hblank,
    List.singleton_append]

theorem octets_valued (name v : String) : octets (SourceAttribute.mk name (some v)).written =
    ' ' :: (octets name ++ '=' :: '"' :: (octets v ++ ['"'])) := by
  have hblank : octets " " = [' '] := by decide
  have hopen : octets "=\"" = ['=', '"'] := by decide
  have hclose : octets "\"" = ['"'] := by decide
  simp only [SourceAttribute.written, octets_append, hblank, hopen, hclose, List.cons_append,
    List.nil_append]

/-- **Attributes.** An attribute is reported whole, whatever goes on behind it. -/
theorem SourceAttribute.run_written {a : SourceAttribute} (h : a.WellFormed) (hrest : GoesOn rest)
    (name : List Char) (i : ℕ) :
    (Mode.beforeAttribute name).run i (octets a.written ++ rest) =
      a.tokens i ++ (Mode.beforeAttribute name).run (i + size a.written) rest := by
  have hne := octets_ne_nil h.ne_nil
  have hname := h.isNameOctet
  obtain ⟨aname, _ | v⟩ := a
  · obtain ⟨c, more, rfl, hc⟩ := hrest.exists_cons
    have hend : i + 1 + (octets aname).length = i + size (SourceAttribute.mk aname none).written := by
      rw [← length_octets (SourceAttribute.written _), octets_bare, List.length_cons]
      omega
    rw [octets_bare, List.cons_append, Mode.run_attributeName hne hname (.inr hc),
      Mode.run_afterAttributeName hrest, hend, length_octets]
    rfl
  · have hv : '"' ∉ octets v := fun hmem =>
      h.value v rfl (mem_toList_of_mem_octets (by decide) hmem)
    have hend : i + 1 + (octets aname).length + 2 + (octets v).length + 1 =
        i + size (SourceAttribute.mk aname (some v)).written := by
      rw [← length_octets (SourceAttribute.written _), octets_valued]
      simp only [List.length_cons, List.length_append, List.length_nil]
      omega
    rw [octets_valued]
    simp only [List.cons_append, List.append_assoc, List.nil_append]
    rw [Mode.run_attributeName hne hname (.inl rfl), Mode.run_doubleQuoted hv, hend, length_octets,
      length_octets]
    rfl

theorem goesOn_attributes (h : ∀ a ∈ as, a.WellFormed) (hrest : GoesOn rest) :
    GoesOn (octets (writtenAttributes as) ++ rest) := by
  rcases as with _ | ⟨a, as⟩
  · exact hrest
  · have ha := h a List.mem_cons_self
    obtain ⟨d, ds, hd⟩ := List.exists_cons_of_ne_nil (octets_ne_nil ha.ne_nil)
    obtain ⟨hne, -, hsection⟩ := ha.isNameOctet d (by simp [hd])
    have hblank : isAsciiBlank d = false := by
      rw [endsTagSection, Bool.or_eq_false_iff] at hsection
      exact hsection.2
    obtain ⟨more, hmore⟩ : ∃ more, octets a.written = ' ' :: d :: more := by
      obtain ⟨aname, _ | v⟩ := a
      · exact ⟨ds, by rw [octets_bare, hd]⟩
      · exact ⟨_, by rw [octets_valued, hd, List.cons_append]⟩
    rw [writtenAttributes, octets_append, hmore]
    exact .inr ⟨d, _, rfl, hne, hblank⟩

theorem run_writtenAttributes (h : ∀ a ∈ as, a.WellFormed) (hrest : GoesOn rest) (name : List Char)
    (i : ℕ) : (Mode.beforeAttribute name).run i (octets (writtenAttributes as) ++ rest) =
      attributeTokens as i ++ (Mode.beforeAttribute name).run (i + size (writtenAttributes as)) rest := by
  induction as generalizing i with
  | nil => rfl
  | cons a as ih =>
    obtain ⟨ha, has⟩ := List.forall_mem_cons.1 h
    rw [writtenAttributes, octets_append, List.append_assoc,
      a.run_written ha (goesOn_attributes has hrest), ih has, attributeTokens, size_append,
      Nat.add_assoc, List.append_assoc]

/-- **Start tags.** A start tag is reported up to its end. -/
theorem SourceTag.run_written {t : SourceTag} (h : t.WellFormed) (hrest : GoesOn rest) (i : ℕ) :
    (Mode.text i).run i (octets t.written ++ rest) =
      t.tokens i ++ (Mode.beforeAttribute t.name.toList).run (i + size t.written) rest := by
  obtain ⟨c, cs, hname, hc, hcs⟩ := h.name
  have hopen : octets "<" = ['<'] := by decide
  have hstop : size t.name = cs.length + 1 := by
    rw [← length_octets, h.name.octets_eq, hname, List.length_cons]
  have hsize : i + size t.written = i + 1 + size t.name + size (writtenAttributes t.attributes) := by
    rw [SourceTag.written, size_append, size_append]
    show i + (1 + _ + _) = _
    omega
  rw [hsize, SourceTag.written, octets_append, octets_append, hopen, h.name.octets_eq, hname]
  simp only [List.cons_append, List.append_assoc, List.nil_append]
  rw [Mode.run_startTag hc (fun d hd => endsTagSection_eq_false (List.all_eq_true.1 hcs d hd))
    (goesOn_attributes h.attributes hrest), ← hstop, run_writtenAttributes h.attributes hrest]
  rfl

/-! ## Leaves -/

theorem octets_comment (body : String) : octets (SourceLeaf.comment body).written =
    '<' :: '!' :: '-' :: '-' :: (octets body ++ ['-', '-', '>']) := by
  have hopen : octets "<!--" = ['<', '!', '-', '-'] := by decide
  have hclose : octets "-->" = ['-', '-', '>'] := by decide
  simp only [SourceLeaf.written, octets_append, hopen, hclose, List.cons_append, List.nil_append]

theorem octets_expression (code : String) : octets (SourceLeaf.expression code).written =
    '\x7b' :: (octets code ++ ['\x7d']) := by
  have hopen : octets "\x7b" = ['\x7b'] := by decide
  have hclose : octets "\x7d" = ['\x7d'] := by decide
  simp only [SourceLeaf.written, octets_append, hopen, hclose, List.cons_append, List.nil_append]

/-- The end of a comment is found in its octets only if it stands in its body. -/
theorem not_infix_octets {body : String} (h : ¬ "-->".toList <:+: body.toList) :
    ¬ "-->".toList <:+: octets body := by
  rintro ⟨xs, ys, hsplit⟩
  obtain ⟨a, b, rfl, -, -⟩ := exists_split_of_octets hsplit.symm (by decide) (by simp [IsAsciiOctet])
  exact h ⟨a.toList, b.toList, by simp⟩

/-- **Leaves.** A leaf is reported with its span; a text needs something behind it that ends it. -/
theorem SourceLeaf.run_written {x : SourceLeaf} (h : x.WellFormed)
    (hrest : x.isText = true → EndsText rest) (i : ℕ) :
    (Mode.text i).run i (octets x.written ++ rest) = x.token (.withLength i (size x.written)) ::
      (Mode.text (i + size x.written)).run (i + size x.written) rest := by
  rw [← length_octets x.written]
  cases x with
  | text t =>
    obtain ⟨hne, hlt, hbrace⟩ := h
    have hplain : ∀ d ∈ octets t, d ≠ '<' ∧ d ≠ '\x7b' := by
      refine fun d hd => ⟨?_, ?_⟩
      · rintro rfl
        exact hlt (mem_toList_of_mem_octets (by decide) hd)
      · rintro rfl
        exact hbrace (mem_toList_of_mem_octets (by decide) hd)
    have hpos : 0 < (octets t).length := List.length_pos_iff.2 (octets_ne_nil hne)
    show (Mode.text i).run i (octets t ++ rest) = _
    rw [Mode.run_text hplain, Mode.run_text_of_endsText (by omega) (hrest rfl)]
    rfl
  | comment body =>
    rw [octets_comment]
    simp only [List.cons_append, List.append_assoc, List.nil_append]
    rw [Mode.run_comment (not_infix_octets h)]
    simp only [List.length_cons, List.length_append, List.length_nil]
    rfl
  | expression code =>
    have hcode : ∀ d ∈ octets code, d ∉ ['\x7b', '\x7d', '"', '\'', '\x60'] := by
      intro d hd hmem
      have hascii : ∀ d ∈ ['\x7b', '\x7d', '"', '\'', '\x60'], IsAsciiOctet d := by
        simp [IsAsciiOctet]
      exact h d (mem_toList_of_mem_octets (hascii d hmem) hd) hmem
    rw [octets_expression]
    simp only [List.cons_append, List.append_assoc, List.nil_append]
    rw [Mode.run_expression hcode]
    simp only [List.length_cons, List.length_append, List.length_nil]
    rfl

/-! ## Sources -/

theorem endsText_cons (h : c = '<' ∨ c = '\x7b') (rest : List Char) : EndsText (c :: rest) := by
  intro d hd
  obtain rfl := Option.some.inj hd
  exact h

theorem SourceTag.exists_octets_written (t : SourceTag) : ∃ more, octets t.written = '<' :: more := by
  have hopen : octets "<" = ['<'] := by decide
  rw [SourceTag.written, octets_append, octets_append, hopen]
  exact ⟨_, rfl⟩

/-- A text ends before anything but another text. -/
theorem Source.endsText_written {m : Source} (h : m.beginsText = false) (hrest : EndsText rest) :
    EndsText (octets m.written ++ rest) := by
  cases m with
  | nil => exact hrest
  | leaf x m =>
    rw [Source.written, octets_append, List.append_assoc]
    cases x with
    | text t => cases h
    | comment body =>
      rw [octets_comment]
      exact endsText_cons (.inl rfl) _
    | expression code =>
      rw [octets_expression]
      exact endsText_cons (.inr rfl) _
  | lone selfCloses tag m =>
    obtain ⟨more, hmore⟩ := tag.exists_octets_written
    rw [Source.written, octets_append, octets_append, hmore]
    exact endsText_cons (.inl rfl) _
  | element tag children m =>
    obtain ⟨more, hmore⟩ := tag.exists_octets_written
    simp only [Source.written, octets_append, hmore]
    exact endsText_cons (.inl rfl) _

theorem afterStartTag_eq {name : String} (h : name ∉ rawTextElements) (i : ℕ) :
    Mode.afterStartTag name.toList i = .text (i + 1) := by
  rw [Mode.afterStartTag, isRawTextName_eq_false h]
  rfl

theorem SourceTag.run_writtenEnd {t : SourceTag} (h : t.WellFormed) (i : ℕ) (rest : List Char) :
    (Mode.text i).run i (octets t.writtenEnd ++ rest) =
      .closeTag i (.withLength (i + 2) (size t.name)) (i + 2 + size t.name) ::
        (Mode.text (i + size t.writtenEnd)).run (i + size t.writtenEnd) rest := by
  obtain ⟨c, cs, hname, hc, hcs⟩ := h.name
  have hopen : octets "</" = ['<', '/'] := by decide
  have hclose : octets ">" = ['>'] := by decide
  have hstop : size t.name = cs.length + 1 := by
    rw [← length_octets, h.name.octets_eq, hname, List.length_cons]
  have hsize : size t.writtenEnd = cs.length + 4 := by
    rw [SourceTag.writtenEnd, size_append, size_append, hstop]
    show 2 + _ + 1 = _
    omega
  have hplain {d : Char} (hd : d.isAlphanum = true) : d ≠ '>' ∧ isAsciiBlank d = false := by
    have hsection := endsTagSection_eq_false hd
    rw [endsTagSection, Bool.or_eq_false_iff] at hsection
    exact ⟨ne_of_apply hd (by decide), hsection.2⟩
  rw [hsize, hstop, SourceTag.writtenEnd, octets_append, octets_append, hopen, hclose,
    h.name.octets_eq, hname]
  simp only [List.cons_append, List.append_assoc, List.nil_append]
  exact Mode.run_endTag (hplain (by rw [Char.isAlphanum, hc, Bool.true_or]))
    (fun d hd => hplain (List.all_eq_true.1 hcs d hd)) i rest

/-- The end of a tag that is followed by no content of its own. -/
theorem run_loneEnd {name : String} {selfCloses : Bool}
    (h : selfCloses = false → name ∉ rawTextElements) (i : ℕ) (rest : List Char) :
    (Mode.beforeAttribute name.toList).run i (octets (loneEnd selfCloses) ++ rest) =
      (if selfCloses then .selfClose (i + 2) else .openEnd i) ::
        (Mode.text (i + size (loneEnd selfCloses))).run (i + size (loneEnd selfCloses)) rest := by
  cases selfCloses with
  | false =>
    have hend : octets (loneEnd false) = ['>'] := by decide
    rw [hend, List.singleton_append, Mode.run_beforeAttribute_openEnd, afterStartTag_eq (h rfl)]
    rfl
  | true =>
    have hend : octets (loneEnd true) = [' ', '/', '>'] := by decide
    simp only [hend, List.cons_append, List.nil_append]
    exact Mode.run_beforeAttribute_selfClose name.toList i rest

theorem goesOn_loneEnd (selfCloses : Bool) (rest : List Char) :
    GoesOn (octets (loneEnd selfCloses) ++ rest) := by
  cases selfCloses with
  | false => exact .inl ⟨rest, rfl⟩
  | true => exact .inr ⟨'/', _, rfl, by decide, by decide⟩

/-- **Sources.** The machine reports the tokens of a source, and is in text behind it. -/
theorem Source.run_written {m : Source} (h : m.WellFormed) (hrest : EndsText rest) (i : ℕ) :
    (Mode.text i).run i (octets m.written ++ rest) =
      m.tokens i ++ (Mode.text (i + size m.written)).run (i + size m.written) rest := by
  induction m generalizing i rest with
  | nil => rfl
  | leaf x m ih =>
    obtain ⟨hx, htext, hm⟩ := h
    rw [Source.written, octets_append, List.append_assoc,
      x.run_written hx fun hx => m.endsText_written (htext hx) hrest, ih hm hrest, size_append,
      Nat.add_assoc]
    rfl
  | lone selfCloses tag m ih =>
    obtain ⟨htag, hvoid, hm⟩ := h
    have hnotRaw : ∀ name ∈ voidElements, name ∉ rawTextElements := by decide
    rw [Source.written, octets_append, octets_append, List.append_assoc, List.append_assoc,
      tag.run_written htag (goesOn_loneEnd selfCloses _),
      run_loneEnd fun hself => hnotRaw _ (hvoid hself), ih hm hrest, Source.tokens]
    simp only [size_append, List.append_assoc, List.cons_append, Nat.add_assoc]
  | element tag children m ihc ihr =>
    obtain ⟨htag, -, hraw, hchildren, hm⟩ := h
    have hgt : octets ">" = ['>'] := by decide
    have hsize : size ">" = 1 := rfl
    have hendTag : EndsText (octets tag.writtenEnd ++ (octets m.written ++ rest)) :=
      endsText_cons (.inl rfl) _
    simp only [Source.written, octets_append, List.append_assoc, hgt, List.cons_append, List.nil_append]
    rw [tag.run_written htag (.inl ⟨_, rfl⟩), Mode.run_beforeAttribute_openEnd, afterStartTag_eq hraw,
      ihc hchildren hendTag, tag.run_writtenEnd htag, ihr hm hrest, Source.tokens]
    simp only [size_append, hsize, List.append_assoc, List.cons_append, Nat.add_assoc]

end Polyglot.Markup
