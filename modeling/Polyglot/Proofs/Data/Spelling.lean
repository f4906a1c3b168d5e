import Polyglot.Proofs.Data.Datum
import Polyglot.Proofs.Data.Block

/-!
# Reading spelled scalars

A scalar without a position is spelled by a word or by a quoted string (`Atom.SpelledBy`). Both as JSON and
as a literal it is spelled so, and a quoted string is read from its quotes whatever follows.
-/

namespace Polyglot.Data

open Text Typed

variable {s t : String} {c d : Char} {cs ds body rest : List Char} {start : ℕ} {a : Atom}

/-! ## Spellings -/

/-- An ASCII letter, a digit or a dash. -/
def isWordChar (c : Char) : Bool := c.isAlphanum || c == '-'

/-- One or more letters, digits and dashes, and not a dash alone. -/
structure IsWord (cs : List Char) : Prop where
  ne_nil : cs ≠ []
  chars : cs.all isWordChar = true
  ne_dash : cs ≠ ['-']

theorem isAsciiOctet_of_isWordChar (h : isWordChar d = true) : IsAsciiOctet d := by
  rw [isWordChar, Bool.or_eq_true, beq_iff_eq] at h
  rcases h with h | rfl
  · exact isAsciiOctet_of_isAlphanum h
  · decide

theorem octets_of_isWord (h : IsWord t.toList) : octets t = t.toList :=
  octets_eq_toList fun d hd => isAsciiOctet_of_isWordChar (List.all_eq_true.1 h.chars d hd)

/-- A quoted string, by what stands between its quotes. -/
def quoted (body : List Char) : String := "\"" ++ String.ofList body ++ "\""

/-- A text that a scalar is read from. -/
inductive Atom.SpelledBy : Atom → String → Prop
  | word {a : Atom} {t : String} : IsWord t.toList → Value.ofPlain t = a.value → SpelledBy a t
  | quoted {body : List Char} {s : String} : IsStringBody body → unescapeList body = s.toList →
      SpelledBy (.text s) (quoted body)

theorem quote_eq (s : String) : quote s = quoted (quoteBody s) := by
  refine String.toList_injective ?_
  rw [toList_quote, quoted]
  simp

theorem quoteSafe_eq (s : String) : quoteSafe s = quoted (quoteSafeBody s) := by
  refine String.toList_injective ?_
  rw [toList_quoteSafe, quoted]
  simp

theorem isWord_toString (n : ℤ) : IsWord (toString n).toList where
  ne_nil := Value.toString_ne_nil n
  chars := List.all_eq_true.2 fun c hc => by
    have hall := List.all_eq_true.1 (Value.all_isDigitOrMinus_toString n) c hc
    simp only [Value.isDigitOrMinus, Bool.or_eq_true] at hall
    simp only [isWordChar, Char.isAlphanum, Bool.or_eq_true]
    exact hall.imp_left .inr
  ne_dash := by
    rw [toList_toString]
    split_ifs
    · simp
    · intro heq
      have hdigit := (isDigits_toDigits n.natAbs).isDigit '-' (by rw [heq]; simp)
      cases hdigit

theorem fits64_toInt (n : Int64) : Value.fits64 n.toInt = true := by
  have hle := n.le_toInt
  have hlt := n.toInt_lt
  simp only [Value.fits64, Bool.and_eq_true, decide_eq_true_eq]
  omega

theorem Atom.spelledBy_literal (a : Atom) : a.SpelledBy a.value.literal := by
  cases a with
  | null => exact .word ⟨by decide, by decide, by decide⟩ (by decide)
  | bool b => cases b <;> exact .word ⟨by decide, by decide, by decide⟩ (by decide)
  | int n => exact .word (isWord_toString n.toInt) (Value.ofPlain_toString (fits64_toInt n))
  | text s =>
    show SpelledBy (.text s) (quoteSafe s)
    rw [quoteSafe_eq]
    exact .quoted (isStringBody_quoteSafeBody s) (unescapeList_quoteSafeBody s)

theorem spelledBy_quote (s : String) : (Atom.text s).SpelledBy (quote s) := by
  rw [quote_eq]
  exact .quoted (isStringBody_quoteBody s) (unescapeList_quoteBody s)

theorem Atom.spelledBy_json (a : Atom) : a.SpelledBy a.json := by
  cases a with
  | text s => exact spelledBy_quote s
  | null => exact spelledBy_literal .null
  | bool b => exact spelledBy_literal (.bool b)
  | int n => exact spelledBy_literal (.int n)

/-! ## Quoted strings -/

theorem octets_quoted (body : List Char) :
    octets (quoted body) = '"' :: (octets (String.ofList body) ++ ['"']) := by
  have hquote : octets "\"" = ['"'] := octets_singleton (c := '"') (by decide)
  rw [quoted, octets_append, octets_append, hquote, List.append_assoc, List.singleton_append]

theorem size_quoted (body : List Char) : size (quoted body) = size (String.ofList body) + 2 := by
  rw [← length_octets, octets_quoted, List.length_cons, List.length_append, length_octets]
  rfl

/-- The first bare quote behind shielded octets closes them. -/
theorem beforeClosingQuote?_shielded (h : IsShielded ds) (rest : List Char) :
    beforeClosingQuote? '"' (ds ++ '"' :: rest) = some ds.length := by
  induction h with
  | nil =>
    rcases rest with _ | ⟨d, rest⟩
    · rfl
    · rw [List.nil_append, beforeClosingQuote?]
      rfl
  | @plain d ds hquote hbackslash _ ih =>
    obtain ⟨e, more, hmore⟩ := List.exists_cons_of_ne_nil (l := ds ++ '"' :: rest) (by simp)
    rw [List.cons_append, hmore, beforeClosingQuote?, if_neg (fun h => hbackslash h.2),
      if_neg hquote, ← hmore, ih]
    rfl
  | @escape d ds _ ih =>
    rw [List.cons_append, List.cons_append, beforeClosingQuote?, if_pos ⟨rfl, rfl⟩, ih]
    rfl

/-- A text between two marks. -/
def enclosed (q : Char) (inner : String) : String :=
  String.singleton q ++ inner ++ String.singleton q

theorem quoted_eq (body : List Char) : quoted body = enclosed '"' (String.ofList body) := rfl

theorem octets_enclosed {q : Char} (hq : IsAsciiOctet q) (inner : String) :
    octets (enclosed q inner) = q :: (octets inner ++ [q]) := by
  rw [enclosed, octets_append, octets_append, octets_singleton hq, List.append_assoc,
    List.singleton_append]

theorem size_enclosed {q : Char} (hq : IsAsciiOctet q) (inner : String) :
    size (enclosed q inner) = size inner + 2 := by
  rw [← length_octets, octets_enclosed hq, List.length_cons, List.length_append, length_octets]
  rfl

/-- What is read from a text between two quotes. -/
def readQuoted (q : Char) (inner : String) : String :=
  if q = '"' then unescape inner else undouble inner

/-- A text between quotes is read, whatever follows it, if the last quote is the first to close it. -/
theorem quotedScalar_enclosed {q : Char} (hq : IsAsciiOctet q) {inner : String}
    (hclose : beforeClosingQuote? q (octets inner ++ q :: rest) = some (size inner))
    (h : Stretch s start (octets (enclosed q inner))) :
    ∃ x, quotedScalar s start (octets (enclosed q inner) ++ rest) =
      .ok ⟨x, size (enclosed q inner), []⟩ ∧ x.value = .text (readQuoted q inner) := by
  have hone : size (String.singleton q) = 1 := by
    rw [← length_octets, octets_singleton hq]
    rfl
  have hinner : tokenText s (.withLength (start + 1) (size inner)) = .ok inner := by
    have hstand := h.left.right
    rw [hone] at hstand
    rw [tokenText, hstand.slice?]
  have htoken : tokenText s (.withLength start (size inner + 2)) = .ok (enclosed q inner) := by
    rw [← size_enclosed hq, tokenText, h.slice?]
  rw [octets_enclosed hq, List.cons_append, List.append_assoc, List.singleton_append, size_enclosed hq]
  unfold quotedScalar readQuoted
  simp only [List.headD_cons, List.tail_cons, hclose, hinner, htoken, bind, Except.bind, pure,
    Except.pure, Span.length_withLength]
  refine ⟨_, rfl, ?_⟩
  split_ifs <;> rfl

/-- A quoted string is read, whatever follows it. -/
theorem quotedScalar_quoted (hbody : IsStringBody body) (ht : unescapeList body = t.toList)
    (h : Stretch s start (octets (quoted body))) (rest : List Char) :
    ∃ x, quotedScalar s start (octets (quoted body) ++ rest) =
      .ok ⟨x, size (quoted body), []⟩ ∧ x.value = .text t := by
  have hclose := beforeClosingQuote?_shielded (isShielded_octets hbody) rest
  rw [length_octets] at hclose
  have hread : readQuoted '"' (String.ofList body) = t := by
    rw [readQuoted, if_pos rfl, unescape, String.toList_ofList, ht, String.ofList_toList]
  rw [quoted_eq] at h ⊢
  rw [← hread]
  exact quotedScalar_enclosed (by decide) hclose h

end Polyglot.Data
