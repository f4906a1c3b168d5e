import Mathlib.Data.List.Basic

/-!
# Lexemes of the typed language

The part of the typed language's lexical grammar that data is written in: decimal numbers, names, strings
in double quotes and punctuation, with white space between them. A text reads as at most one list of
tokens (`Lexes.unique`). Texts that read as tokens wherever they stand (`Spells`) can be put behind one
another.
-/

namespace Polyglot.Typed

/-! ## Numbers -/

/-- One or more decimal digits. -/
structure IsDigits (cs : List Char) : Prop where
  ne_nil : cs ≠ []
  isDigit : ∀ c ∈ cs, c.isDigit = true

/-- The digits before the point: a zero only stands alone. -/
structure IsWhole (cs : List Char) : Prop extends IsDigits cs where
  no_zero : cs.head? = some '0' → cs = ['0']

/-- The point and the digits behind it, if there are any. -/
inductive IsFraction : List Char → Prop
  | none : IsFraction []
  | point {ds : List Char} : IsDigits ds → IsFraction ('.' :: ds)

/-- The power of ten, if there is one. -/
inductive IsExponent : List Char → Prop
  | none : IsExponent []
  | power {letter : Char} {sign ds : List Char} : letter ∈ ['e', 'E'] →
      sign ∈ [[], ['+'], ['-']] → IsDigits ds → IsExponent (letter :: (sign ++ ds))

/-- A decimal number without a sign. -/
inductive IsNumber : List Char → Prop
  | mk {whole fraction exponent : List Char} : IsWhole whole → IsFraction fraction →
      IsExponent exponent → IsNumber (whole ++ (fraction ++ exponent))

/-! ## Names and strings -/

/-- The character may begin a name. Of the characters beyond ASCII all may. -/
def isNameStart (c : Char) : Bool := c.isAlpha || c == '$' || c == '_' || 0x80 ≤ c.toNat

/-- An identifier name; a reserved word is one as well. -/
structure IsName (cs : List Char) : Prop where
  head : cs.head?.any isNameStart = true
  rest : cs.all (fun c => isNameStart c || c.isDigit) = true

def isHexDigit (c : Char) : Bool :=
  c.isDigit || ('a' ≤ c && c ≤ 'f') || ('A' ≤ c && c ≤ 'F')

/-- What may stand between the quotes of a string: no bare quote, backslash or line break. -/
inductive IsStringBody : List Char → Prop
  | nil : IsStringBody []
  | plain {c : Char} {cs : List Char} : c ∉ ['"', '\\', '\n', '\r'] → IsStringBody cs →
      IsStringBody (c :: cs)
  | escape {c : Char} {cs : List Char} : c ∈ ['"', '\\', '/', 'b', 'f', 'n', 'r', 't'] →
      IsStringBody cs → IsStringBody ('\\' :: c :: cs)
  | code {ds cs : List Char} : ds.length = 4 → ds.all isHexDigit = true →
      IsStringBody cs → IsStringBody ('\\' :: 'u' :: (ds ++ cs))

/-! ## Tokens -/

/-- A token of the typed language. -/
inductive Token where
  | mark (c : Char)
  /-- A number, a name or a keyword, with its sign. -/
  | word (cs : List Char)
  /-- A string, by what stands between its quotes. -/
  | text (body : List Char)
deriving DecidableEq

def spaces : List Char := [' ', '\t', '\r', '\n']

/-- Punctuation. -/
def marks : List Char := ['\x7b', '\x7d', '[', ']', '(', ')', ':', ',']

/-- What ends a word. -/
def delimiters : List Char := '"' :: (spaces ++ marks)

/-- A word that ends in front of the text goes on no further. -/
def Delimited (cs : List Char) : Prop := ∀ c ∈ cs.head?, c ∈ delimiters

/-- The text reads as these tokens, with white space between them. -/
inductive Lexes : List Char → List Token → Prop
  | nil : Lexes [] []
  | space {c : Char} {cs : List Char} {ts : List Token} : c ∈ spaces → Lexes cs ts →
      Lexes (c :: cs) ts
  | mark {c : Char} {cs : List Char} {ts : List Token} : c ∈ marks → Lexes cs ts →
      Lexes (c :: cs) (.mark c :: ts)
  | word {c : Char} {w cs : List Char} {ts : List Token} : (∀ d ∈ c :: w, d ∉ delimiters) →
      Delimited cs → Lexes cs ts → Lexes (c :: (w ++ cs)) (.word (c :: w) :: ts)
  | text {body cs : List Char} {ts : List Token} : IsStringBody body → Lexes cs ts →
      Lexes ('"' :: (body ++ '"' :: cs)) (.text body :: ts)

/-! ## A text reads in one way -/

variable {c : Char} {cs ds xs ys v w body : List Char} {ts us : List Token}

/-- The first quote that no backslash shields closes the string. -/
theorem IsStringBody.close_unique (hx : IsStringBody xs) (hy : IsStringBody ys)
    (h : xs ++ '"' :: cs = ys ++ '"' :: ds) : xs = ys ∧ cs = ds := by
  induction hx generalizing ys with
  | nil =>
    cases hy with
    | nil => exact ⟨rfl, (List.cons.inj h).2⟩
    | _ => grind
  | plain hc _ ih =>
    cases hy with
    | plain _ hy =>
      obtain ⟨rfl, htail⟩ := List.cons.inj h
      obtain ⟨rfl, rfl⟩ := ih hy htail
      exact ⟨rfl, rfl⟩
    | _ => grind
  | @escape c _ hc _ ih =>
    cases hy with
    | code =>
      obtain rfl : c = 'u' := (List.cons.inj (List.cons.inj h).2).1
      exact absurd hc (by decide)
    | escape _ hy =>
      obtain ⟨rfl, htail⟩ := List.cons.inj (List.cons.inj h).2
      obtain ⟨rfl, rfl⟩ := ih hy htail
      exact ⟨rfl, rfl⟩
    | _ => grind
  | code hlength _ _ ih =>
    cases hy with
    | @escape c _ hc =>
      obtain rfl : 'u' = c := (List.cons.inj (List.cons.inj h).2).1
      exact absurd hc (by decide)
    | code hlength' _ hy =>
      simp only [List.cons_append, List.append_assoc, List.cons.injEq, true_and] at h
      obtain ⟨rfl, htail⟩ := List.append_inj h (hlength.trans hlength'.symm)
      obtain ⟨rfl, rfl⟩ := ih hy htail
      exact ⟨rfl, rfl⟩
    | _ => grind

theorem Delimited.takeWhile (hw : ∀ c ∈ w, c ∉ delimiters) (h : Delimited cs) :
    (w ++ cs).takeWhile (· ∉ delimiters) = w := by
  rw [List.takeWhile_append_of_pos fun c hc => decide_eq_true (hw c hc)]
  cases cs with
  | nil => exact List.append_nil w
  | cons c cs => rw [List.takeWhile_cons_of_neg (by simp [h c rfl]), List.append_nil]

theorem notMem_marks_of_mem_spaces : ∀ c ∈ spaces, c ∉ marks := by
  simp [spaces, marks]

theorem mem_delimiters_of_mem_spaces (hc : c ∈ spaces) : c ∈ delimiters :=
  .tail _ (List.mem_append_left marks hc)

theorem mem_delimiters_of_mem_marks (hc : c ∈ marks) : c ∈ delimiters :=
  .tail _ (List.mem_append_right spaces hc)

/-- **A text reads in one way.** The first character tells what stands there: white space, punctuation,
a string or a word. -/
theorem Lexes.unique (hts : Lexes cs ts) (hus : Lexes cs us) : ts = us := by
  induction hts generalizing us with
  | nil =>
    cases hus
    rfl
  | space hc _ ih =>
    cases hus with
    | space _ hus => exact ih hus
    | mark hmark => exact absurd hmark (notMem_marks_of_mem_spaces _ hc)
    | word hw => exact absurd (mem_delimiters_of_mem_spaces hc) (hw _ List.mem_cons_self)
    | text => exact absurd hc (by decide)
  | mark hmark _ ih =>
    cases hus with
    | space hc => exact absurd hmark (notMem_marks_of_mem_spaces _ hc)
    | mark _ hus => rw [ih hus]
    | word hw => exact absurd (mem_delimiters_of_mem_marks hmark) (hw _ List.mem_cons_self)
    | text => exact absurd hmark (by decide)
  | @word c w cs ts hw hend _ ih =>
    generalize htail : w ++ cs = tail at hus
    cases hus with
    | space hc => exact absurd (mem_delimiters_of_mem_spaces hc) (hw _ List.mem_cons_self)
    | mark hmark => exact absurd (mem_delimiters_of_mem_marks hmark) (hw _ List.mem_cons_self)
    | word hw' hend' hus =>
      have htake := hend.takeWhile fun d hd => hw d (.tail c hd)
      rw [htail, hend'.takeWhile fun d hd => hw' d (.tail c hd)] at htake
      obtain rfl := htake
      obtain rfl := List.append_cancel_left htail
      rw [ih hus]
    | text => exact absurd List.mem_cons_self (hw _ List.mem_cons_self)
  | @text body cs ts hbody _ ih =>
    generalize htail : body ++ '"' :: cs = tail at hus
    cases hus with
    | space hc => exact absurd hc (by decide)
    | mark hmark => exact absurd hmark (by decide)
    | word hw => exact absurd List.mem_cons_self (hw _ List.mem_cons_self)
    | text hbody' hus =>
      obtain ⟨rfl, rfl⟩ := hbody.close_unique hbody' htail
      rw [ih hus]

/-! ## Texts in a row -/

/-- The text reads as these tokens, whatever stands behind it. -/
def Spells (cs : List Char) (ts : List Token) : Prop :=
  ∀ rest us, Lexes rest us → Lexes (cs ++ rest) (ts ++ us)

/-- The text reads as these tokens if no more of a word stands behind it. -/
def SpellsLast (cs : List Char) (ts : List Token) : Prop :=
  ∀ rest us, Delimited rest → Lexes rest us → Lexes (cs ++ rest) (ts ++ us)

theorem Spells.nil : Spells [] [] := fun _ _ h => h

theorem Spells.append (hcs : Spells cs ts) (hds : Spells ds us) : Spells (cs ++ ds) (ts ++ us) := by
  intro rest vs h
  rw [List.append_assoc, List.append_assoc]
  exact hcs _ _ (hds _ _ h)

theorem Spells.space (hc : c ∈ spaces) (h : Spells cs ts) : Spells (c :: cs) ts :=
  fun _ _ hrest => (h _ _ hrest).space hc

theorem Spells.mark (hc : c ∈ marks) (h : Spells cs ts) : Spells (c :: cs) (.mark c :: ts) :=
  fun _ _ hrest => (h _ _ hrest).mark hc

theorem Spells.lexes (h : Spells cs ts) : Lexes cs ts := by
  have hlexes := h _ _ Lexes.nil
  rwa [List.append_nil, List.append_nil] at hlexes

theorem Spells.last (h : Spells cs ts) : SpellsLast cs ts := fun _ _ _ hrest => h _ _ hrest

theorem SpellsLast.append (hcs : SpellsLast cs ts) (hc : c ∈ delimiters) (h : Spells (c :: ds) us) :
    Spells (cs ++ c :: ds) (ts ++ us) := by
  intro rest vs hrest
  rw [List.append_assoc, List.append_assoc]
  refine hcs _ _ ?_ (h _ _ hrest)
  rintro _ ⟨⟩
  exact hc

theorem spells_text (h : IsStringBody body) : Spells ('"' :: (body ++ ['"'])) [.text body] := by
  intro rest us hrest
  rw [List.cons_append, List.append_assoc]
  exact hrest.text h

theorem spellsLast_word (hne : w ≠ []) (hw : ∀ c ∈ w, c ∉ delimiters) : SpellsLast w [.word w] := by
  intro rest us hend hrest
  cases w with
  | nil => exact absurd rfl hne
  | cons c w => exact hrest.word hw hend

theorem spellsLast_of_all (hne : w ≠ []) (hw : w.all (· ∉ delimiters) = true) :
    SpellsLast w [.word w] :=
  spellsLast_word hne fun c hc => of_decide_eq_true (List.all_eq_true.1 hw c hc)

/-! ## Numbers are words -/

theorem isDigit_of_mem_delimiters : ∀ c ∈ delimiters, c.isDigit = false := by
  simp [delimiters, spaces, marks]

theorem IsDigits.notMem_delimiters (h : IsDigits cs) : ∀ c ∈ cs, c ∉ delimiters := by
  intro c hc hmem
  have hdigit := h.isDigit c hc
  rw [isDigit_of_mem_delimiters c hmem] at hdigit
  cases hdigit

theorem IsNumber.notMem_delimiters (h : IsNumber cs) : ∀ c ∈ cs, c ∉ delimiters := by
  obtain ⟨hwhole, hfraction, hexponent⟩ := h
  intro c hc
  rcases List.mem_append.1 hc with hc | hc
  · exact hwhole.notMem_delimiters c hc
  rcases List.mem_append.1 hc with hc | hc
  · cases hfraction with
    | none => cases hc
    | point hdigits =>
      rcases List.mem_cons.1 hc with rfl | hc
      · decide
      · exact hdigits.notMem_delimiters c hc
  · cases hexponent with
    | none => cases hc
    | @power letter sign ds hletter hsign hdigits =>
      have hletters : ∀ c ∈ ['e', 'E'], c ∉ delimiters := by simp [delimiters, spaces, marks]
      have hsigns : ∀ sign ∈ [[], ['+'], ['-']], ∀ c ∈ sign, c ∉ delimiters := by
        simp [delimiters, spaces, marks]
      rcases List.mem_cons.1 hc with rfl | hc
      · exact hletters c hletter
      · exact (List.mem_append.1 hc).elim (hsigns sign hsign c) (hdigits.notMem_delimiters c)

end Polyglot.Typed
