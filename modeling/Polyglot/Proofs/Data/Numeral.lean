import Mathlib.Computability.RegularExpressions
import Mathlib.Data.Nat.Digits.Defs
import Polyglot.Proofs.Data.Plain

/-!
# Numerals

The integers that a scalar spells are those of positional notation, with an optional sign and in the range
of 64 bits (`signed?_eq_some_iff`). The decimal numbers are a regular language (`isSome_decimalParts?_iff`):
splitting at the first `e` and the first point finds the parts of the pattern, if there are any.
-/

namespace Polyglot.Data

open Text RegularExpression

variable {base d m n : ℕ} {z : ℤ} {c e : Char} {cs ds rest : List Char} {p : Char → Bool}
  {P Q : RegularExpression Char}

/-! ## Digits -/

/-- One or more digits in a base up to 16, in either case, the most significant first. -/
def IsNumeral (base : ℕ) (cs : List Char) (n : ℕ) : Prop :=
  cs ≠ [] ∧ ∃ ds : List ℕ, (∀ d ∈ ds, d < base) ∧ cs.map Char.toLower = ds.map Nat.digitChar ∧
    n = Nat.ofDigits base ds.reverse

/-- An optionally signed numeral. -/
inductive IsInteger (base : ℕ) : List Char → ℤ → Prop
  | bare {cs : List Char} {n : ℕ} : IsNumeral base cs n → IsInteger base cs n
  | plus {cs : List Char} {n : ℕ} : IsNumeral base cs n → IsInteger base ('+' :: cs) n
  | minus {cs : List Char} {n : ℕ} : IsNumeral base cs n → IsInteger base ('-' :: cs) (-n)

/-- A smaller base has fewer digits. -/
theorem digit?_of_le (hbase : base ≤ 16) :
    digit? base c = some d ↔ d < base ∧ digit? 16 c = some d := by
  unfold digit?
  generalize '0'.toNat = x, 'a'.toNat = y, 'A'.toNat = z
  dsimp only
  split_ifs <;> simp <;> omega

theorem digit?_eq_some_iff (hbase : base ≤ 16) :
    digit? base c = some d ↔ d < base ∧ c.toLower = Nat.digitChar d := by
  have hascii : ∀ i < 128, ∀ d < 16,
      digit? 16 (Char.ofNat i) = some d ↔ (Char.ofNat i).toLower = Nat.digitChar d := by
    decide +kernel
  rw [digit?_of_le hbase]
  refine and_congr_right fun hd => ?_
  rcases Nat.lt_or_ge c.toNat 128 with hc | hc
  · have h := hascii c.toNat hc d (by omega)
    rwa [Char.ofNat_toNat] at h
  · have habove : ∀ e : Char, e.toNat < 128 → ¬ c ≤ e := fun e he hle =>
      absurd (UInt32.le_iff_toNat_le.1 (Char.le_def.1 hle)) (Nat.not_le.2 (he.trans_le hc))
    have hlower : c.toLower = c := dif_neg fun h => habove 'Z' (by decide) h.2
    have hnone : digit? 16 c = none := by
      unfold digit?
      simp only [habove '9' (by decide), habove 'f' (by decide), habove 'F' (by decide), and_false,
        if_false]
      rfl
    have hdigit : ∀ d < 16, (Nat.digitChar d).toNat < 128 := by decide
    rw [hlower, hnone]
    refine ⟨nofun, ?_⟩
    rintro rfl
    exact absurd hc (Nat.not_le.2 (hdigit d (by omega)))

theorem spelledFrom?_eq_some_iff (hbase : base ≤ 16) : spelledFrom? base m cs = some n ↔
    ∃ ds : List ℕ, (∀ d ∈ ds, d < base) ∧ cs.map Char.toLower = ds.map Nat.digitChar ∧
      n = ds.foldl (fun a d => base * a + d) m := by
  induction cs generalizing m with
  | nil =>
    rw [spelledFrom?, Option.some_inj]
    constructor
    · rintro rfl
      exact ⟨[], List.forall_mem_nil _, rfl, rfl⟩
    · rintro ⟨ds, -, hds, rfl⟩
      obtain rfl := List.map_eq_nil_iff.1 hds.symm
      rfl
  | cons c cs ih =>
    rw [spelledFrom?, Option.bind_eq_some_iff]
    constructor
    · rintro ⟨d, hd, hcs⟩
      obtain ⟨hlt, hc⟩ := (digit?_eq_some_iff hbase).1 hd
      obtain ⟨ds, hds, hmap, rfl⟩ := ih.1 hcs
      exact ⟨d :: ds, List.forall_mem_cons.2 ⟨hlt, hds⟩, by rw [List.map_cons, hc, hmap]; rfl, rfl⟩
    · rintro ⟨ds, hds, hmap, rfl⟩
      obtain ⟨d, ds, rfl, hd, htail⟩ := List.map_eq_cons_iff.1 hmap.symm
      obtain ⟨hlt, hds⟩ := List.forall_mem_cons.1 hds
      exact ⟨d, (digit?_eq_some_iff hbase).2 ⟨hlt, hd.symm⟩, ih.2 ⟨ds, hds, htail.symm, rfl⟩⟩

theorem spelled?_eq_some_iff (hbase : base ≤ 16) :
    spelled? base cs = some n ↔ IsNumeral base cs n := by
  unfold spelled? IsNumeral
  split_ifs with hnil
  · exact ⟨nofun, fun h => absurd (List.isEmpty_iff.1 hnil) h.1⟩
  · rw [List.isEmpty_iff] at hnil
    rw [spelledFrom?_eq_some_iff hbase, and_iff_right hnil]
    simp [Nat.ofDigits_eq_foldr, Nat.add_comm]

/-! ## Integers -/

/-- A signed integer of 64 bits. -/
def IsWide (z : ℤ) : Prop := -2 ^ 63 ≤ z ∧ z < 2 ^ 63

theorem fits64_iff : Value.fits64 z = true ↔ IsWide z := by
  rw [IsWide, Value.fits64, Bool.and_eq_true, decide_eq_true_eq, decide_eq_true_eq]
  norm_num

/-- A sign is no digit. -/
theorem not_isNumeral_sign (hbase : base ≤ 16) (hsign : c = '-' ∨ c = '+') :
    ¬ IsNumeral base (c :: cs) n := by
  rw [← spelled?_eq_some_iff hbase]
  rcases hsign with rfl | rfl <;> simp [spelled?, spelledFrom?, digit?]

theorem isInteger_iff (hbase : base ≤ 16) : IsInteger base cs z ↔
    ∃ n : ℕ, IsNumeral base (Value.splitSign cs).2 n ∧
      z = if (Value.splitSign cs).1 then -(n : ℤ) else n := by
  constructor
  · intro h
    cases h with
    | @bare _ n hn =>
      refine ⟨n, ?_⟩
      unfold Value.splitSign
      split
      · exact absurd hn (not_isNumeral_sign hbase (.inl rfl))
      · exact absurd hn (not_isNumeral_sign hbase (.inr rfl))
      · exact ⟨hn, rfl⟩
    | plus hn => exact ⟨_, hn, rfl⟩
    | minus hn => exact ⟨_, hn, rfl⟩
  · rintro ⟨n, hn, rfl⟩
    unfold Value.splitSign at hn ⊢
    split at hn
    · exact .minus hn
    · exact .plus hn
    · exact .bare hn

/-- **Integers.** What is read as an integer is an integer of 64 bits. -/
theorem signed?_eq_some_iff (hbase : base ≤ 16) :
    Value.signed? base cs = some z ↔ IsInteger base cs z ∧ IsWide z := by
  rw [isInteger_iff hbase, ← fits64_iff, Value.signed?]
  dsimp only
  rw [Option.bind_eq_some_iff]
  constructor
  · rintro ⟨n, hn, hz⟩
    split_ifs at hz with hneg hfits hfits
    all_goals
      obtain rfl := Option.some.inj hz
      exact ⟨⟨n, (spelled?_eq_some_iff hbase).1 hn, by simp [hneg]⟩, hfits⟩
  · rintro ⟨⟨n, hn, rfl⟩, hfits⟩
    exact ⟨n, (spelled?_eq_some_iff hbase).2 hn, if_pos hfits⟩

/-! ## Patterns -/

/-- One of these characters. -/
def oneOf (cs : List Char) : RegularExpression Char := (cs.map char).sum

/-- The pattern or nothing. -/
def optional (P : RegularExpression Char) : RegularExpression Char := 1 + P

/-- The pattern once or more often. -/
def oneOrMore (P : RegularExpression Char) : RegularExpression Char := P * P.star

/-- A decimal digit. -/
def digit : RegularExpression Char := oneOf "0123456789".toList

/-- An optional sign in front of a pattern. -/
def signed (P : RegularExpression Char) : RegularExpression Char := optional (oneOf ['-', '+']) * P

/-- `\.[0-9]+|[0-9]+(\.[0-9]*)?` -/
def mantissa : RegularExpression Char :=
  char '.' * oneOrMore digit + oneOrMore digit * optional (char '.' * digit.star)

/-- `(\.[0-9]+|[0-9]+(\.[0-9]*)?)([eE][-+]?[0-9]+)?` -/
def decimal : RegularExpression Char :=
  mantissa * optional (oneOf ['e', 'E'] * signed (oneOrMore digit))

theorem mem_char : cs ∈ (char c).matches' ↔ cs = [c] := by
  rw [matches'_char]
  exact Iff.rfl

theorem mem_oneOf : cs ∈ (oneOf ds).matches' ↔ ∃ c ∈ ds, cs = [c] := by
  unfold oneOf
  induction ds with
  | nil => simp
  | cons d ds ih =>
    rw [List.map_cons, List.sum_cons, matches'_add, Language.mem_add, ih, mem_char]
    simp

theorem mem_optional : cs ∈ (optional P).matches' ↔ cs = [] ∨ cs ∈ P.matches' := by
  rw [optional, matches'_add, Language.mem_add, matches'_epsilon, Language.mem_one]

theorem mem_mul : cs ∈ (P * Q).matches' ↔
    ∃ a b, cs = a ++ b ∧ a ∈ P.matches' ∧ b ∈ Q.matches' := by
  rw [matches'_mul, Language.mem_mul]
  constructor
  · rintro ⟨a, ha, b, hb, rfl⟩
    exact ⟨a, b, rfl, ha, hb⟩
  · rintro ⟨a, b, rfl, ha, hb⟩
    exact ⟨a, ha, b, hb, rfl⟩

theorem mem_char_mul :
    cs ∈ (char c * P).matches' ↔ ∃ rest, cs = c :: rest ∧ rest ∈ P.matches' := by
  rw [mem_mul]
  simp only [mem_char]
  constructor
  · rintro ⟨_, rest, rfl, rfl, hrest⟩
    exact ⟨rest, rfl, hrest⟩
  · rintro ⟨rest, rfl, hrest⟩
    exact ⟨[c], rest, rfl, rfl, hrest⟩

theorem mem_oneOf_mul :
    cs ∈ (oneOf ds * P).matches' ↔ ∃ c rest, cs = c :: rest ∧ c ∈ ds ∧ rest ∈ P.matches' := by
  rw [mem_mul]
  simp only [mem_oneOf]
  constructor
  · rintro ⟨_, rest, rfl, ⟨c, hc, rfl⟩, hrest⟩
    exact ⟨c, rest, rfl, hc, hrest⟩
  · rintro ⟨c, rest, rfl, hc, hrest⟩
    exact ⟨[c], rest, rfl, ⟨c, hc, rfl⟩, hrest⟩

theorem mem_star_oneOf : cs ∈ (oneOf ds).star.matches' ↔ ∀ c ∈ cs, c ∈ ds := by
  rw [matches'_star, Language.mem_kstar]
  constructor
  · rintro ⟨words, rfl, hwords⟩ c hc
    obtain ⟨word, hword, hc⟩ := List.mem_flatten.1 hc
    obtain ⟨d, hd, rfl⟩ := mem_oneOf.1 (hwords word hword)
    exact List.mem_singleton.1 hc ▸ hd
  · intro h
    refine ⟨cs.map fun c => [c], by simp [← List.flatMap_def], fun word hword => ?_⟩
    obtain ⟨c, hc, rfl⟩ := List.mem_map.1 hword
    exact mem_oneOf.2 ⟨c, h c hc, rfl⟩

theorem isDigit_iff : Value.isDigit c = true ↔ c ∈ "0123456789".toList := by
  have htext : "0123456789".toList = ['0', '1', '2', '3', '4', '5', '6', '7', '8', '9'] := by decide
  rw [htext]
  constructor
  · intro h
    have hall : ∀ i < 10, Char.ofNat (48 + i) ∈
        ['0', '1', '2', '3', '4', '5', '6', '7', '8', '9'] := by decide
    rw [Value.isDigit, Bool.and_eq_true, decide_eq_true_eq, decide_eq_true_eq] at h
    have hlow : 48 ≤ c.toNat := UInt32.le_iff_toNat_le.1 (Char.le_def.1 h.1)
    have hhigh : c.toNat ≤ 57 := UInt32.le_iff_toNat_le.1 (Char.le_def.1 h.2)
    have hdigit := hall (c.toNat - 48) (by omega)
    rwa [Nat.add_sub_of_le hlow, Char.ofNat_toNat] at hdigit
  · have hall : ['0', '1', '2', '3', '4', '5', '6', '7', '8', '9'].all Value.isDigit = true := by decide
    exact List.all_eq_true.1 hall c

theorem mem_digits : cs ∈ digit.star.matches' ↔ cs.all Value.isDigit = true := by
  rw [digit, mem_star_oneOf, List.all_eq_true]
  exact forall₂_congr fun c _ => isDigit_iff.symm

theorem mem_oneOrMore_digit :
    cs ∈ (oneOrMore digit).matches' ↔ cs ≠ [] ∧ cs.all Value.isDigit = true := by
  rw [oneOrMore, digit, mem_oneOf_mul]
  simp only [mem_star_oneOf, List.all_eq_true, isDigit_iff]
  constructor
  · rintro ⟨c, rest, rfl, hc, hrest⟩
    exact ⟨List.cons_ne_nil _ _, List.forall_mem_cons.2 ⟨hc, hrest⟩⟩
  · rintro ⟨hne, hall⟩
    obtain ⟨c, rest, rfl⟩ := List.exists_cons_of_ne_nil hne
    exact ⟨c, rest, rfl, List.forall_mem_cons.1 hall⟩

/-- If no word of a pattern begins with a sign, then a leading sign is the optional one. -/
theorem mem_signed (hP : ∀ c rest, c :: rest ∈ P.matches' → c ≠ '-' ∧ c ≠ '+') :
    cs ∈ (signed P).matches' ↔ (Value.splitSign cs).2 ∈ P.matches' := by
  rw [signed, mem_mul]
  constructor
  · rintro ⟨sign, rest, rfl, hsign, hrest⟩
    rcases mem_optional.1 hsign with rfl | hsign
    · rw [List.nil_append]
      unfold Value.splitSign
      split
      · exact absurd rfl (hP _ _ hrest).1
      · exact absurd rfl (hP _ _ hrest).2
      · exact hrest
    · obtain ⟨c, hc, rfl⟩ := mem_oneOf.1 hsign
      rcases List.mem_pair.1 hc with rfl | rfl <;> exact hrest
  · intro h
    unfold Value.splitSign at h
    split at h
    · exact ⟨['-'], _, rfl, mem_optional.2 (.inr (mem_oneOf.2 ⟨_, by simp, rfl⟩)), h⟩
    · exact ⟨['+'], _, rfl, mem_optional.2 (.inr (mem_oneOf.2 ⟨_, by simp, rfl⟩)), h⟩
    · exact ⟨[], _, rfl, mem_optional.2 (.inl rfl), h⟩

/-! ## Decimal numbers -/

theorem splitAtFirst_of_forall (h : ∀ c ∈ cs, p c = false) : Value.splitAtFirst p cs = (cs, none) := by
  have hnot : ∀ c ∈ cs, (!p c) = true := fun c hc => by rw [h c hc]; rfl
  unfold Value.splitAtFirst
  rw [List.takeWhile_eq_self_iff.2 hnot, List.dropWhile_eq_nil_iff.2 hnot]
  rfl

theorem splitAtFirst_append (hcs : ∀ c ∈ cs, p c = false) (hc : p c = true) :
    Value.splitAtFirst p (cs ++ c :: rest) = (cs, some rest) := by
  have hnot : ∀ c ∈ cs, (!p c) = true := fun c hc => by rw [hcs c hc]; rfl
  unfold Value.splitAtFirst
  rw [List.takeWhile_append_of_pos hnot, List.dropWhile_append_of_pos hnot,
    List.takeWhile_cons_of_neg (by simp [hc]), List.dropWhile_cons_of_neg (by simp [hc]),
    List.append_nil]
  rfl

/-- What is split off is behind a character that `p` holds of. -/
theorem splitAtFirst_eq (p : Char → Bool) (cs : List Char) :
    (Value.splitAtFirst p cs).2 = none ∧ cs = (Value.splitAtFirst p cs).1 ∨
      ∃ c rest, (Value.splitAtFirst p cs).2 = some rest ∧ p c = true ∧
        cs = (Value.splitAtFirst p cs).1 ++ c :: rest := by
  have happend := List.takeWhile_append_dropWhile (p := fun c => !p c) (l := cs)
  have hhead := List.head?_dropWhile_not (fun c => !p c) cs
  unfold Value.splitAtFirst
  rcases hdrop : cs.dropWhile (fun c => !p c) with _ | ⟨c, rest⟩
  · rw [hdrop, List.append_nil] at happend
    exact .inl ⟨rfl, happend.symm⟩
  · rw [hdrop] at happend hhead
    exact .inr ⟨c, rest, rfl, by simpa using hhead, happend.symm⟩

theorem ne_of_isDigit (h : Value.isDigit c = true) (he : Value.isDigit e = false) : c ≠ e := by
  rintro rfl
  rw [h] at he
  cases he

theorem isSome_digit?_iff : (digit? 10 c).isSome = Value.isDigit c := by
  unfold digit? Value.isDigit
  by_cases h : '0' ≤ c ∧ c ≤ '9'
  · have hle := UInt32.le_iff_toNat_le.1 (Char.le_def.1 h.2)
    have hlt : c.toNat - '0'.toNat < 10 := (Nat.sub_le_sub_right hle _).trans_lt (by decide)
    dsimp only
    rw [if_pos h, if_pos hlt, decide_eq_true h.1, decide_eq_true h.2]
    rfl
  · have hfalse : (decide ('0' ≤ c) && decide (c ≤ '9')) = false := by
      rw [← Bool.decide_and, decide_eq_false h]
    rw [hfalse]
    dsimp only
    rw [if_neg h, if_neg]
    · rfl
    · split_ifs <;> omega

theorem isSome_spelled?_iff : (spelled? 10 cs).isSome ↔ cs ∈ (oneOrMore digit).matches' := by
  have hfrom (m : ℕ) : (spelledFrom? 10 m cs).isSome = cs.all Value.isDigit := by
    induction cs generalizing m with
    | nil => rfl
    | cons c cs ih =>
      rw [spelledFrom?, List.all_cons, ← isSome_digit?_iff]
      rcases digit? 10 c with _ | d
      · rfl
      · exact ih _
  rw [mem_oneOrMore_digit, spelled?, ← List.isEmpty_eq_false_iff]
  split_ifs with hnil
  · simp [hnil]
  · rw [hfrom]
    simp [hnil]

/-- No digits begin with a sign. -/
theorem ne_sign_of_digits (h : c :: rest ∈ (oneOrMore digit).matches') : c ≠ '-' ∧ c ≠ '+' := by
  have hc := List.all_eq_true.1 (mem_oneOrMore_digit.1 h).2 c List.mem_cons_self
  exact ⟨ne_of_isDigit hc (by decide), ne_of_isDigit hc (by decide)⟩

theorem isSome_exponent?_iff :
    (Value.exponent? (some cs)).isSome ↔ cs ∈ (signed (oneOrMore digit)).matches' := by
  rw [mem_signed fun c rest => ne_sign_of_digits, ← isSome_spelled?_iff, Value.exponent?]
  dsimp only
  rcases spelled? 10 (Value.splitSign cs).2 with _ | n <;> exact Iff.rfl

theorem mem_mantissa : cs ∈ mantissa.matches' ↔
    (Value.splitAtFirst (· == '.') cs).1.all Value.isDigit = true ∧
      ((Value.splitAtFirst (· == '.') cs).2.getD []).all Value.isDigit = true ∧
      ¬ ((Value.splitAtFirst (· == '.') cs).1 = [] ∧
        (Value.splitAtFirst (· == '.') cs).2.getD [] = []) := by
  have hpoint : ∀ ds : List Char, ds.all Value.isDigit = true → ∀ c ∈ ds, (c == '.') = false := by
    intro ds hds c hc
    rw [beq_eq_false_iff_ne]
    exact ne_of_isDigit (List.all_eq_true.1 hds c hc) (by decide)
  rw [mantissa, matches'_add, Language.mem_add]
  constructor
  · rintro (h | h)
    · obtain ⟨ds, rfl, hds⟩ := mem_char_mul.1 h
      obtain ⟨hne, hall⟩ := mem_oneOrMore_digit.1 hds
      have hsplit : Value.splitAtFirst (· == '.') ('.' :: ds) = ([], some ds) := rfl
      rw [hsplit]
      exact ⟨rfl, hall, fun h => hne h.2⟩
    · obtain ⟨whole, rest, rfl, hwhole, hrest⟩ := mem_mul.1 h
      obtain ⟨hne, hall⟩ := mem_oneOrMore_digit.1 hwhole
      rcases mem_optional.1 hrest with rfl | hrest
      · rw [List.append_nil, splitAtFirst_of_forall (hpoint whole hall)]
        exact ⟨hall, rfl, fun h => hne h.1⟩
      · obtain ⟨ds, rfl, hds⟩ := mem_char_mul.1 hrest
        rw [splitAtFirst_append (hpoint whole hall) rfl]
        exact ⟨hall, mem_digits.1 hds, fun h => hne h.1⟩
  · have hsplit := splitAtFirst_eq (· == '.') cs
    generalize Value.splitAtFirst (· == '.') cs = parts at hsplit ⊢
    obtain ⟨whole, fraction⟩ := parts
    rintro ⟨hwhole, hfraction, hne⟩
    rcases hsplit with ⟨rfl, rfl⟩ | ⟨c, ds, rfl, hc, rfl⟩
    · have hwhole := mem_oneOrMore_digit.2 ⟨fun h => hne ⟨h, rfl⟩, hwhole⟩
      exact .inr (mem_mul.2 ⟨_, [], (List.append_nil _).symm, hwhole, mem_optional.2 (.inl rfl)⟩)
    · obtain rfl := beq_iff_eq.1 hc
      rcases eq_or_ne whole [] with rfl | hwhole'
      · have hds := mem_oneOrMore_digit.2 ⟨fun h => hne ⟨rfl, h⟩, hfraction⟩
        exact .inl (mem_char_mul.2 ⟨ds, rfl, hds⟩)
      · have hrest : '.' :: ds ∈ (char '.' * digit.star).matches' :=
          mem_char_mul.2 ⟨ds, rfl, mem_digits.2 hfraction⟩
        exact .inr (mem_mul.2 ⟨whole, _, rfl, mem_oneOrMore_digit.2 ⟨hwhole', hwhole⟩,
          mem_optional.2 (.inr hrest)⟩)

/-- A mantissa has digits and a point only. -/
theorem isDigit_or_eq_of_mantissa (h : cs ∈ mantissa.matches') :
    ∀ c ∈ cs, Value.isDigit c = true ∨ c = '.' := by
  obtain ⟨hwhole, hfraction, -⟩ := mem_mantissa.1 h
  have hsplit := splitAtFirst_eq (· == '.') cs
  generalize Value.splitAtFirst (· == '.') cs = parts at hsplit hwhole hfraction
  obtain ⟨whole, fraction⟩ := parts
  rcases hsplit with ⟨rfl, rfl⟩ | ⟨c, ds, rfl, hc, rfl⟩
  · exact fun c hc => .inl (List.all_eq_true.1 hwhole c hc)
  · obtain rfl := beq_iff_eq.1 hc
    refine List.forall_mem_append.2 ⟨fun c hc => .inl (List.all_eq_true.1 hwhole c hc), ?_⟩
    exact List.forall_mem_cons.2 ⟨.inr rfl, fun c hc => .inl (List.all_eq_true.1 hfraction c hc)⟩

/-- The character that the exponent begins with. -/
def isMark (c : Char) : Bool := c == 'e' || c == 'E'

theorem isMark_iff : isMark c = true ↔ c ∈ ['e', 'E'] := by simp [isMark]

theorem isMark_of_isDigit (h : Value.isDigit c = true) : isMark c = false := by
  rw [Bool.eq_false_iff, ne_eq, isMark_iff]
  intro hmark
  rcases List.mem_pair.1 hmark with rfl | rfl <;> cases h

theorem isMark_of_mantissa (h : cs ∈ mantissa.matches') : ∀ c ∈ cs, isMark c = false := by
  intro c hc
  rcases isDigit_or_eq_of_mantissa h c hc with hdigit | rfl
  · exact isMark_of_isDigit hdigit
  · decide

/-- The reader of decimal numbers, by the parts of a text around its first `e`. -/
theorem isSome_decimalParts?_eq : (Value.decimalParts? cs).isSome ↔
    (Value.splitAtFirst isMark cs).1 ∈ mantissa.matches' ∧
      (Value.exponent? (Value.splitAtFirst isMark cs).2).isSome := by
  rw [mem_mantissa]
  unfold Value.decimalParts?
  change Option.isSome (if _ then _ else _) = true ↔ _
  split_ifs with h
  all_goals
    rw [Bool.and_eq_true, Bool.and_eq_true, Bool.not_eq_true', ← Bool.not_eq_true, Bool.and_eq_true,
      List.isEmpty_iff, List.isEmpty_iff, and_assoc] at h
  · rw [Option.isSome_map]
    exact (and_iff_right h).symm
  · exact ⟨nofun, fun hparts => absurd hparts.1 h⟩

/-- **Decimal numbers.** Exactly the words of the pattern are read as decimal numbers. -/
theorem isSome_decimalParts?_iff : (Value.decimalParts? cs).isSome ↔ cs ∈ decimal.matches' := by
  rw [isSome_decimalParts?_eq, decimal, mem_mul]
  constructor
  · have hsplit := splitAtFirst_eq isMark cs
    generalize Value.splitAtFirst isMark cs = parts at hsplit ⊢
    obtain ⟨m, e⟩ := parts
    rintro ⟨hm, he⟩
    rcases hsplit with ⟨rfl, rfl⟩ | ⟨c, rest, rfl, hc, rfl⟩
    · exact ⟨_, [], (List.append_nil _).symm, hm, mem_optional.2 (.inl rfl)⟩
    · have hpower := mem_oneOf_mul.2 ⟨c, rest, rfl, isMark_iff.1 hc, isSome_exponent?_iff.1 he⟩
      exact ⟨m, _, rfl, hm, mem_optional.2 (.inr hpower)⟩
  · rintro ⟨m, e, rfl, hm, he⟩
    rcases mem_optional.1 he with rfl | he
    · rw [List.append_nil, splitAtFirst_of_forall (isMark_of_mantissa hm)]
      exact ⟨hm, rfl⟩
    · obtain ⟨c, rest, rfl, hc, hrest⟩ := mem_oneOf_mul.1 he
      rw [splitAtFirst_append (isMark_of_mantissa hm) (isMark_iff.2 hc)]
      exact ⟨hm, isSome_exponent?_iff.2 hrest⟩

/-- No decimal number begins with a sign. -/
theorem ne_sign_of_decimal (h : c :: rest ∈ decimal.matches') : c ≠ '-' ∧ c ≠ '+' := by
  obtain ⟨m, e, heq, hm, -⟩ := mem_mul.1 h
  cases m with
  | nil => exact absurd ⟨rfl, rfl⟩ (mem_mantissa.1 hm).2.2
  | cons d m =>
    obtain rfl := (List.cons.inj heq).1
    rcases isDigit_or_eq_of_mantissa hm c List.mem_cons_self with hc | rfl
    · exact ⟨ne_of_isDigit hc (by decide), ne_of_isDigit hc (by decide)⟩
    · decide

/-- The reader drops the optional sign. -/
theorem mem_signed_decimal :
    cs ∈ (signed decimal).matches' ↔ (Value.decimalParts? (Value.splitSign cs).2).isSome := by
  rw [mem_signed fun c rest => ne_sign_of_decimal, isSome_decimalParts?_iff]

end Polyglot.Data
