import Polyglot.Proofs.Typed.Lexeme

/-!
# Expressions of the typed language

The grammar of data in the typed language:

    Expr = string | number, with or without a sign
         | true | false | null | NaN | Infinity | -Infinity
         | new Date ( string ) | { (Key : Expr ,)* } | [ (Expr ,)* ]
    Key  = string | name | number

An `Expr` is a derivation tree with its tokens as leaves. A text derives from at most one of them
(`Derives.unique`).
-/

namespace Polyglot.Typed

/-- The words that are values. -/
def constants : List (List Char) :=
  ["true".toList, "false".toList, "null".toList, "NaN".toList, "Infinity".toList, "-Infinity".toList]

/-- The token is an expression on its own. -/
def IsValue : Token → Prop
  | .mark _ => False
  | .word w => IsNumber w ∨ (∃ sign ∈ ['+', '-'], ∃ v, w = sign :: v ∧ IsNumber v) ∨ w ∈ constants
  | .text _ => True

/-- The token is a property name. -/
def IsKey : Token → Prop
  | .mark _ => False
  | .word w => IsName w ∨ IsNumber w
  | .text _ => True

/-- A derivation tree. -/
inductive Expr where
  | value (t : Token)
  /-- A date, by what stands between the quotes of its string. -/
  | date (body : List Char)
  | object (pairs : List (Token × Expr))
  | array (items : List Expr)

namespace Expr

mutual

/-- The tokens at the leaves of the tree. -/
def tokens : Expr → List Token
  | .value t => [t]
  | .date body =>
    [.word ['n', 'e', 'w'], .word ['D', 'a', 't', 'e'], .mark '(', .text body, .mark ')']
  | .object pairs => .mark '\x7b' :: (pairTokens pairs ++ [.mark '\x7d'])
  | .array items => .mark '[' :: (itemTokens items ++ [.mark ']'])

def pairTokens : List (Token × Expr) → List Token
  | [] => []
  | (key, e) :: rest => key :: .mark ':' :: (e.tokens ++ .mark ',' :: pairTokens rest)

def itemTokens : List Expr → List Token
  | [] => []
  | e :: rest => e.tokens ++ .mark ',' :: itemTokens rest

end

mutual

/-- The leaves of the tree are values, and keys of this kind. -/
def WellFormed (key : Token → Prop) : Expr → Prop
  | .value t => IsValue t
  | .date _ => True
  | .object pairs => PairsWellFormed key pairs
  | .array items => ItemsWellFormed key items

def PairsWellFormed (key : Token → Prop) : List (Token × Expr) → Prop
  | [] => True
  | (k, e) :: rest => key k ∧ e.WellFormed key ∧ PairsWellFormed key rest

def ItemsWellFormed (key : Token → Prop) : List Expr → Prop
  | [] => True
  | e :: rest => e.WellFormed key ∧ ItemsWellFormed key rest

end

end Expr

/-- The text derives from the grammar by this tree. -/
structure Derives (e : Expr) (s : String) : Prop where
  wellFormed : e.WellFormed IsKey
  lexes : Lexes s.toList e.tokens

/-! ## Values and numbers begin differently -/

variable {c : Char} {cs w : List Char}

theorem IsNumber.head (h : IsNumber cs) : ∃ d ∈ cs.head?, d.isDigit = true := by
  obtain @⟨whole, fraction, exponent, hwhole, -, -⟩ := h
  cases whole with
  | nil => exact absurd rfl hwhole.ne_nil
  | cons d ds => exact ⟨d, rfl, hwhole.isDigit d List.mem_cons_self⟩

theorem IsNumber.ne_nil (h : IsNumber cs) : cs ≠ [] := by
  rintro rfl
  obtain ⟨d, ⟨⟩, -⟩ := h.head

theorem not_isNumber_cons (hc : c.isDigit = false) : ¬ IsNumber (c :: cs) := by
  intro h
  obtain ⟨d, ⟨⟩, hd⟩ := h.head
  rw [hc] at hd
  cases hd

theorem not_isValue_new : ¬ IsValue (.word ['n', 'e', 'w']) := by
  rintro (h | ⟨sign, hsign, v, hv, -⟩ | h)
  · exact not_isNumber_cons (by decide) h
  · obtain rfl : 'n' = sign := (List.cons.inj hv).1
    exact absurd hsign (by decide)
  · exact absurd h (by decide +kernel)

theorem not_isKey_minus (cs : List Char) : ¬ IsKey (.word ('-' :: cs)) := by
  rintro (hname | hnumber)
  · have hstart : isNameStart '-' = true := hname.head
    exact absurd hstart (by decide)
  · exact not_isNumber_cons (by decide) hnumber

/-! ## Words -/

theorem isValue_signed {p : Prop} [Decidable p] (h : IsNumber cs) :
    IsValue (.word (if p then '-' :: cs else cs)) := by
  split_ifs
  · exact .inr (.inl ⟨'-', by decide, cs, rfl, h⟩)
  · exact .inl h

/-- A number with a sign is no property name. -/
theorem isKey_signed_iff {p : Prop} [Decidable p] (h : IsNumber cs) :
    IsKey (.word (if p then '-' :: cs else cs)) ↔ ¬ p := by
  split_ifs with hp
  · exact iff_of_false (not_isKey_minus cs) (not_not_intro hp)
  · exact iff_of_true (.inr h) hp

theorem spellsLast_constant : ∀ w ∈ constants, SpellsLast w [.word w] := by
  have hconstants : ∀ w ∈ constants, w ≠ [] ∧ w.all (· ∉ delimiters) = true := by decide +kernel
  exact fun w hw => spellsLast_of_all (hconstants w hw).1 (hconstants w hw).2

theorem spellsLast_of_isValue (h : IsValue (.word w)) : SpellsLast w [.word w] := by
  have hsigns : ∀ c ∈ ['+', '-'], c ∉ delimiters := by simp [delimiters, spaces, marks]
  rcases h with h | ⟨sign, hsign, v, rfl, h⟩ | h
  · exact spellsLast_word h.ne_nil h.notMem_delimiters
  · refine spellsLast_word (List.cons_ne_nil _ _) fun c hc => ?_
    rcases List.mem_cons.1 hc with rfl | hc
    · exact hsigns c hsign
    · exact h.notMem_delimiters c hc
  · exact spellsLast_constant w h

/-! ## A list of tokens has one derivation -/

namespace Expr

variable {key : Token → Prop} {e f : Expr} {r r' : List Token}

theorem tokens_ne_close (h : e.WellFormed key) : e.tokens ++ r ≠ .mark ']' :: r' := by
  intro heq
  cases e with
  | value t =>
    obtain rfl := (List.cons.inj heq).1
    exact h
  | date body => cases (List.cons.inj heq).1
  | object pairs => exact absurd (List.cons.inj heq).1 (by decide)
  | array items => exact absurd (List.cons.inj heq).1 (by decide)

mutual

/-- No derivation goes on where another one ends. -/
theorem tokens_unique (hkey : ∀ c, ¬ key (.mark c)) : ∀ {e f : Expr} {r r' : List Token},
    e.WellFormed key → f.WellFormed key → e.tokens ++ r = f.tokens ++ r' → e = f ∧ r = r'
  | .value t, f, r, r', he, hf, h => by
    cases f with
    | value u =>
      obtain ⟨rfl, hr⟩ := List.cons.inj h
      exact ⟨rfl, hr⟩
    | date body => exact absurd ((List.cons.inj h).1 ▸ he) not_isValue_new
    | object pairs => exact absurd he ((List.cons.inj h).1 ▸ id)
    | array items => exact absurd he ((List.cons.inj h).1 ▸ id)
  | .date body, f, r, r', he, hf, h => by
    cases f with
    | value u => exact absurd ((List.cons.inj h).1 ▸ hf) not_isValue_new
    | date body' =>
      simp only [tokens, List.cons_append, List.nil_append, List.cons.injEq, Token.text.injEq,
        true_and] at h
      exact ⟨congrArg date h.1, h.2⟩
    | object pairs => cases (List.cons.inj h).1
    | array items => cases (List.cons.inj h).1
  | .object pairs, f, r, r', he, hf, h => by
    cases f with
    | value u => exact absurd hf ((List.cons.inj h).1 ▸ id)
    | date body => cases (List.cons.inj h).1
    | object pairs' =>
      rw [tokens, tokens, List.cons_append, List.cons_append, List.append_assoc, List.append_assoc] at h
      obtain ⟨rfl, hr⟩ := pairTokens_unique hkey he hf (List.cons.inj h).2
      exact ⟨rfl, hr⟩
    | array items => exact absurd (List.cons.inj h).1 (by decide)
  | .array items, f, r, r', he, hf, h => by
    cases f with
    | value u => exact absurd hf ((List.cons.inj h).1 ▸ id)
    | date body => cases (List.cons.inj h).1
    | object pairs => exact absurd (List.cons.inj h).1 (by decide)
    | array items' =>
      rw [tokens, tokens, List.cons_append, List.cons_append, List.append_assoc, List.append_assoc] at h
      obtain ⟨rfl, hr⟩ := itemTokens_unique hkey he hf (List.cons.inj h).2
      exact ⟨rfl, hr⟩

theorem pairTokens_unique (hkey : ∀ c, ¬ key (.mark c)) :
    ∀ {ps qs : List (Token × Expr)} {r r' : List Token},
    PairsWellFormed key ps → PairsWellFormed key qs →
      pairTokens ps ++ .mark '\x7d' :: r = pairTokens qs ++ .mark '\x7d' :: r' → ps = qs ∧ r = r'
  | [], [], r, r', _, _, h => ⟨rfl, (List.cons.inj h).2⟩
  | [], (l, f) :: qs, r, r', _, hqs, h => absurd ((List.cons.inj h).1 ▸ hqs.1) (hkey _)
  | (k, e) :: ps, [], r, r', hps, _, h => absurd ((List.cons.inj h).1 ▸ hps.1) (hkey _)
  | (k, e) :: ps, (l, f) :: qs, r, r', hps, hqs, h => by
    simp only [pairTokens, List.cons_append, List.append_assoc, List.cons.injEq, true_and] at h
    obtain ⟨rfl, hvalue⟩ := h
    obtain ⟨rfl, hrest⟩ := tokens_unique hkey hps.2.1 hqs.2.1 hvalue
    obtain ⟨rfl, hr⟩ := pairTokens_unique hkey hps.2.2 hqs.2.2 (List.cons.inj hrest).2
    exact ⟨rfl, hr⟩

theorem itemTokens_unique (hkey : ∀ c, ¬ key (.mark c)) :
    ∀ {es fs : List Expr} {r r' : List Token},
    ItemsWellFormed key es → ItemsWellFormed key fs →
      itemTokens es ++ .mark ']' :: r = itemTokens fs ++ .mark ']' :: r' → es = fs ∧ r = r'
  | [], [], r, r', _, _, h => ⟨rfl, (List.cons.inj h).2⟩
  | [], f :: fs, r, r', _, hfs, h => by
    rw [itemTokens, itemTokens, List.append_assoc] at h
    exact absurd h.symm (tokens_ne_close hfs.1)
  | e :: es, [], r, r', hes, _, h => by
    rw [itemTokens, itemTokens, List.append_assoc] at h
    exact absurd h (tokens_ne_close hes.1)
  | e :: es, f :: fs, r, r', hes, hfs, h => by
    simp only [itemTokens, List.append_assoc] at h
    obtain ⟨rfl, hrest⟩ := tokens_unique hkey hes.1 hfs.1 h
    obtain ⟨rfl, hr⟩ := itemTokens_unique hkey hes.2 hfs.2 (List.cons.inj hrest).2
    exact ⟨rfl, hr⟩

end

mutual

theorem WellFormed.mono {key' : Token → Prop} (hkey : ∀ t, key t → key' t) :
    ∀ {e : Expr}, e.WellFormed key → e.WellFormed key'
  | .value _, h => h
  | .date _, h => h
  | .object _, h => pairsWellFormed_mono hkey h
  | .array _, h => itemsWellFormed_mono hkey h

theorem pairsWellFormed_mono {key' : Token → Prop} (hkey : ∀ t, key t → key' t) :
    ∀ {ps : List (Token × Expr)}, PairsWellFormed key ps → PairsWellFormed key' ps
  | [], h => h
  | _ :: _, h => ⟨hkey _ h.1, WellFormed.mono hkey h.2.1, pairsWellFormed_mono hkey h.2.2⟩

theorem itemsWellFormed_mono {key' : Token → Prop} (hkey : ∀ t, key t → key' t) :
    ∀ {es : List Expr}, ItemsWellFormed key es → ItemsWellFormed key' es
  | [], h => h
  | _ :: _, h => ⟨WellFormed.mono hkey h.1, itemsWellFormed_mono hkey h.2⟩

end

end Expr

/-- **One derivation.** If a text reads as the tokens of a tree whose keys need only be no punctuation, no
other tree derives it. -/
theorem Derives.unique {e f : Expr} {s : String} (hf : Derives f s) (hs : Lexes s.toList e.tokens)
    (he : e.WellFormed fun t => ∀ c, t ≠ .mark c) : f = e := by
  have htokens : f.tokens ++ [] = e.tokens ++ [] := congrArg (· ++ []) (hf.lexes.unique hs)
  refine (Expr.tokens_unique (fun c h => h c rfl) (hf.wellFormed.mono ?_) he htokens).1
  rintro t ht c rfl
  exact ht

end Polyglot.Typed
