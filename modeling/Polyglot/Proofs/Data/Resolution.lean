import Polyglot.Proofs.Data.Numeral
import Polyglot.Proofs.Data.Spelling

/-!
# Resolution of plain scalars

An unquoted scalar is one of the listed words, an integer, a decimal number, a date or else a text
(`ofPlain_kind`). No text is of two kinds, save that an integer is also a decimal number, so the order
in which they are tried matters only there.
-/

namespace Polyglot.Data

open Text

variable {s t : String} {c : Char} {cs ds rest : List Char} {n : ℕ} {z : ℤ}

/-! ## Dates -/

/-- `YYYY-MM-DD` -/
def IsDay (cs : List Char) : Prop := ∃ year month day : List Char,
  cs = year ++ '-' :: (month ++ '-' :: day) ∧ year.length = 4 ∧ month.length = 2 ∧ day.length = 2 ∧
    ∀ c ∈ year ++ month ++ day, Value.isDigit c = true

/-- Five characters or more, a digit first, with a colon among digits, signs, zones and blanks. -/
structure IsTime (cs : List Char) : Prop where
  length : 5 ≤ cs.length
  head : ∀ c ∈ cs.head?, Value.isDigit c = true
  colon : ':' ∈ cs
  chars : ∀ c ∈ cs, Value.isDigit c = true ∨ c ∈ [':', '.', '+', '-', 'Z', 'z', ' ']

/-- A day, alone or with a time behind it. -/
def IsTimestamp (cs : List Char) : Prop := ∃ day rest : List Char, cs = day ++ rest ∧ IsDay day ∧
  (rest = [] ∨ ∃ c time, rest = c :: time ∧ c ∈ ['T', 't', ' '] ∧ IsTime time)

theorem IsDay.length (h : IsDay cs) : cs.length = 10 := by
  obtain ⟨year, month, day, rfl, hyear, hmonth, hday, -⟩ := h
  simp [hyear, hmonth, hday]

/-- A text with a zero for each digit. -/
def masked (cs : List Char) : List Char := cs.map fun c => if Value.isDigit c then '0' else c

theorem masked_eq_zeros :
    masked cs = List.replicate n '0' ↔ cs.length = n ∧ ∀ c ∈ cs, Value.isDigit c = true := by
  unfold masked
  rw [List.eq_replicate_iff, List.length_map]
  refine and_congr_right fun _ => ?_
  rw [List.forall_mem_map]
  refine forall₂_congr fun c _ => ?_
  split_ifs with hc
  · exact iff_of_true rfl hc
  · refine iff_of_false (fun hzero => hc ?_) hc
    rw [hzero]
    decide

theorem masked_eq_day : masked cs = "0000-00-00".toList ↔ IsDay cs := by
  have hday : "0000-00-00".toList = List.replicate 4 '0' ++
      '-' :: (List.replicate 2 '0' ++ '-' :: List.replicate 2 '0') := by decide
  have hdash (c : Char) : (if Value.isDigit c then '0' else c) = '-' ↔ c = '-' := by
    split_ifs with hc
    · refine iff_of_false (by decide) ?_
      rintro rfl
      cases hc
    · exact Iff.rfl
  rw [hday]
  constructor
  · intro h
    obtain ⟨year, behind, rfl, hyear, h⟩ := List.map_eq_append_iff.1 h
    obtain ⟨c, behind, rfl, hc, h⟩ := List.map_eq_cons_iff.1 h
    obtain ⟨month, behind, rfl, hmonth, h⟩ := List.map_eq_append_iff.1 h
    obtain ⟨d, day, rfl, hd, hday⟩ := List.map_eq_cons_iff.1 h
    obtain rfl := (hdash c).1 hc
    obtain rfl := (hdash d).1 hd
    obtain ⟨hyear, hyears⟩ := masked_eq_zeros.1 hyear
    obtain ⟨hmonth, hmonths⟩ := masked_eq_zeros.1 hmonth
    obtain ⟨hday, hdays⟩ := masked_eq_zeros.1 hday
    exact ⟨year, month, day, rfl, hyear, hmonth, hday, List.forall_mem_append.2
      ⟨List.forall_mem_append.2 ⟨hyears, hmonths⟩, hdays⟩⟩
  · rintro ⟨year, month, day, rfl, hyear, hmonth, hday, hdigits⟩
    obtain ⟨hdigits, hdays⟩ := List.forall_mem_append.1 hdigits
    obtain ⟨hyears, hmonths⟩ := List.forall_mem_append.1 hdigits
    have hsplit : masked (year ++ '-' :: (month ++ '-' :: day)) =
        masked year ++ '-' :: (masked month ++ '-' :: masked day) := by
      simp [masked, Value.isDigit]
    rw [hsplit, masked_eq_zeros.2 ⟨hyear, hyears⟩, masked_eq_zeros.2 ⟨hmonth, hmonths⟩,
      masked_eq_zeros.2 ⟨hday, hdays⟩]

theorem isTime_iff : ((c == 'T' || c == 't' || c == ' ') && 5 ≤ cs.length &&
    cs.head?.all Value.isDigit && cs.contains ':' &&
    cs.all fun c => Value.isDigit c || ":.+-Zz ".toList.contains c) = true ↔
      c ∈ ['T', 't', ' '] ∧ IsTime cs := by
  have hchars : ":.+-Zz ".toList = [':', '.', '+', '-', 'Z', 'z', ' '] := by decide
  simp only [Bool.and_eq_true, Bool.or_eq_true, beq_iff_eq, decide_eq_true_eq, Option.all_eq_true,
    List.contains_iff_mem, List.all_eq_true, hchars]
  constructor
  · rintro ⟨⟨⟨⟨hc, hlength⟩, hhead⟩, hcolon⟩, hall⟩
    exact ⟨by simpa [or_assoc] using hc, hlength, hhead, hcolon, hall⟩
  · rintro ⟨hc, hlength, hhead, hcolon, hall⟩
    exact ⟨⟨⟨⟨by simpa [or_assoc] using hc, hlength⟩, hhead⟩, hcolon⟩, hall⟩

theorem isDate_iff : Value.isDate cs = true ↔ IsTimestamp cs := by
  have hmasked : ((cs.take 10).map fun c => if Value.isDigit c then '0' else c) =
      masked (cs.take 10) := rfl
  unfold Value.isDate
  dsimp only
  rw [hmasked, Bool.and_eq_true, beq_iff_eq, masked_eq_day]
  constructor
  · rintro ⟨hday, hrest⟩
    refine ⟨_, _, (List.take_append_drop 10 cs).symm, hday, ?_⟩
    split at hrest
    next hnil => exact .inl hnil
    next c time hcons => exact .inr ⟨c, time, hcons, isTime_iff.1 hrest⟩
  · rintro ⟨day, rest, rfl, hday, hrest⟩
    rw [List.take_left' hday.length, List.drop_left' hday.length]
    refine ⟨hday, ?_⟩
    rcases hrest with rfl | ⟨c, time, rfl, htime⟩
    · rfl
    · exact isTime_iff.2 htime

/-! ## Kinds of plain scalars -/

def nullWords : List String := ["", "~", "null", "Null", "NULL"]

def boolWords : Bool → List String
  | true => ["true", "True", "TRUE"]
  | false => ["false", "False", "FALSE"]

/-- The words for the infinities, and for what is not a number. -/
def floatWords : List String :=
  [".inf", ".Inf", ".INF", "+.inf", "+.Inf", "+.INF", "-.inf", "-.Inf", "-.INF", ".nan", ".NaN", ".NAN"]

/-- All words. -/
def words : List String := nullWords ++ boolWords true ++ boolWords false ++ floatWords

theorem mem_words_iff : s ∈ words ↔ s ∈ nullWords ∨ (∃ b, s ∈ boolWords b) ∨ s ∈ floatWords := by
  simp only [words, List.mem_append, Bool.exists_bool, or_assoc, or_left_comm]

/-- The integer in decimal, or behind `0x` in hexadecimal or `0o` in octal. -/
def SpellsInteger (cs : List Char) (z : ℤ) : Prop :=
  IsInteger 10 cs z ∨ (∃ ds, cs = '0' :: 'x' :: ds ∧ IsInteger 16 ds z) ∨
    ∃ ds, cs = '0' :: 'o' :: ds ∧ IsInteger 8 ds z

/-- The integer that a text is read as. -/
def integer? (cs : List Char) : Option ℤ :=
  let prefixed : Option ℤ :=
    match cs with
    | '0' :: 'x' :: digits => Value.signed? 16 digits
    | '0' :: 'o' :: digits => Value.signed? 8 digits
    | _ => none
  prefixed.or (Value.signed? 10 cs)

theorem isDigit_of_isInteger (h : IsInteger 10 cs z) :
    ∀ c ∈ (Value.splitSign cs).2, Value.isDigit c = true := by
  obtain ⟨n, hn, -⟩ := (isInteger_iff (by decide)).1 h
  have hsome := (spelled?_eq_some_iff (by decide)).2 hn
  have hdigits := isSome_spelled?_iff.1 (Option.isSome_iff_exists.2 ⟨n, hsome⟩)
  exact List.all_eq_true.1 (mem_oneOrMore_digit.1 hdigits).2

/-! ## Foreign characters -/

theorem splitSign_digits (hds : ∀ c ∈ ds, Value.isDigit c = true) (hne : ds ≠ []) :
    Value.splitSign (ds ++ rest) = (false, ds ++ rest) := by
  obtain ⟨d, ds, rfl⟩ := List.exists_cons_of_ne_nil hne
  have hd := hds d List.mem_cons_self
  rw [List.cons_append]
  unfold Value.splitSign
  split
  next heq => exact absurd (List.cons.inj heq).1 (ne_of_isDigit hd (by decide))
  next heq => exact absurd (List.cons.inj heq).1 (ne_of_isDigit hd (by decide))
  next => rfl

/-- Behind digits a character that is none ends an integer. -/
theorem not_isInteger_of_foreign (hds : ∀ c ∈ ds, Value.isDigit c = true) (hne : ds ≠ [])
    (hc : Value.isDigit c = false) : ¬ IsInteger 10 (ds ++ c :: rest) z := by
  intro h
  have hall := isDigit_of_isInteger h
  rw [splitSign_digits hds hne] at hall
  have hdigit := hall c (List.mem_append_right _ List.mem_cons_self)
  rw [hc] at hdigit
  cases hdigit

/-- Behind digits only a point and an exponent go on with a decimal number. -/
theorem not_mem_decimal_of_foreign (hds : ∀ c ∈ ds, Value.isDigit c = true) (hne : ds ≠ [])
    (hc : Value.isDigit c = false) (hpoint : c ≠ '.') (hmark : isMark c = false) :
    ds ++ c :: rest ∉ (signed decimal).matches' := by
  rw [mem_signed_decimal, splitSign_digits hds hne, isSome_decimalParts?_eq]
  rintro ⟨hmantissa, -⟩
  have hnot : ∀ c ∈ ds, (!isMark c) = true := fun c hc => by
    rw [isMark_of_isDigit (hds c hc)]
    rfl
  have hmem : c ∈ (Value.splitAtFirst isMark (ds ++ c :: rest)).1 := by
    unfold Value.splitAtFirst
    rw [List.takeWhile_append_of_pos hnot, List.takeWhile_cons_of_pos (by rw [hmark]; rfl)]
    exact List.mem_append_right _ List.mem_cons_self
  rcases isDigit_or_eq_of_mantissa hmantissa c hmem with hdigit | hdot
  · rw [hc] at hdigit
    cases hdigit
  · exact hpoint hdot

theorem isDigit_zero : ∀ c ∈ ['0'], Value.isDigit c = true := List.forall_mem_singleton.2 (by decide)

/-- What has the prefix of another base is no decimal integer. -/
theorem not_isInteger_prefixed (hc : Value.isDigit c = false) : ¬ IsInteger 10 ('0' :: c :: cs) z :=
  not_isInteger_of_foreign isDigit_zero (List.cons_ne_nil _ _) hc

theorem integer?_eq_some_iff : integer? cs = some z ↔ SpellsInteger cs z ∧ IsWide z := by
  unfold integer? SpellsInteger
  split
  next digits =>
    have hten : ¬ IsInteger 10 ('0' :: 'x' :: digits) z := not_isInteger_prefixed (by decide)
    rw [Option.or_eq_some_iff, signed?_eq_some_iff (by decide), signed?_eq_some_iff (by decide)]
    simp [hten]
  next digits =>
    have hten : ¬ IsInteger 10 ('0' :: 'o' :: digits) z := not_isInteger_prefixed (by decide)
    rw [Option.or_eq_some_iff, signed?_eq_some_iff (by decide), signed?_eq_some_iff (by decide)]
    simp [hten]
  next hx ho =>
    rw [Option.none_or, signed?_eq_some_iff (by decide)]
    refine and_congr_left fun _ => (or_iff_left ?_).symm
    rintro (⟨ds, rfl, -⟩ | ⟨ds, rfl, -⟩)
    · exact hx ds rfl
    · exact ho ds rfl

/-- A text that is no word is tried as an integer, as a decimal number and as a date. -/
theorem ofPlain_of_not_word (h : s ∉ words) : Value.ofPlain s =
    match integer? s.toList with
    | some n => .int n
    | none =>
      match Value.decimalParts? (Value.splitSign s.toList).2 with
      | some d => .float (d.toDouble (Value.splitSign s.toList).1)
      | none => if Value.isDate s.toList then .date s else .text s := by
  have hnot (ws : List String) (hws : ∀ w ∈ ws, w ∈ words) : ws.contains s = false := by
    rw [List.contains_eq_mem, decide_eq_false_iff_not]
    exact fun hs => h (hws s hs)
  unfold Value.ofPlain
  rw [hnot ["", "~", "null", "Null", "NULL"] (by decide), hnot ["true", "True", "TRUE"] (by decide),
    hnot ["false", "False", "FALSE"] (by decide),
    hnot [".inf", ".Inf", ".INF", "+.inf", "+.Inf", "+.INF"] (by decide),
    hnot ["-.inf", "-.Inf", "-.INF"] (by decide), hnot [".nan", ".NaN", ".NAN"] (by decide)]
  simp only [Bool.false_eq_true, if_false]
  rfl

/-! ## Kinds exclude each other -/

/-- No word is an integer, a decimal number or a date. -/
theorem not_of_word (h : s ∈ words) : (∀ z, ¬ (SpellsInteger s.toList z ∧ IsWide z)) ∧
    s.toList ∉ (signed decimal).matches' ∧ ¬ IsTimestamp s.toList := by
  have hall : ∀ w ∈ words, integer? w.toList = none ∧
      (Value.decimalParts? (Value.splitSign w.toList).2).isSome = false ∧
      Value.isDate w.toList = false := by
    decide +kernel
  obtain ⟨hinteger, hdecimal, hdate⟩ := hall s h
  refine ⟨fun z hz => ?_, fun hmem => ?_, fun hstamp => ?_⟩
  · rw [← integer?_eq_some_iff, hinteger] at hz
    cases hz
  · rw [mem_signed_decimal, hdecimal] at hmem
    cases hmem
  · rw [← isDate_iff, hdate] at hstamp
    cases hstamp

/-- An integer behind a prefix is no decimal number. -/
theorem isInteger_of_decimal (h : cs ∈ (signed decimal).matches') (hz : SpellsInteger cs z) :
    IsInteger 10 cs z := by
  rcases hz with hz | ⟨ds, rfl, -⟩ | ⟨ds, rfl, -⟩
  · exact hz
  all_goals
    exact absurd h (not_mem_decimal_of_foreign isDigit_zero (List.cons_ne_nil _ _) (by decide)
      (by decide) (by decide))

/-- A date is neither an integer nor a decimal number. -/
theorem not_of_timestamp (h : IsTimestamp cs) :
    (∀ z, ¬ SpellsInteger cs z) ∧ cs ∉ (signed decimal).matches' := by
  obtain ⟨_, rest, rfl, ⟨year, month, day, rfl, hyear, -, -, hdigits⟩, -⟩ := h
  have hdigits : ∀ c ∈ year, Value.isDigit c = true := fun c hc =>
    hdigits c (List.mem_append_left _ (List.mem_append_left _ hc))
  rw [List.append_assoc, List.cons_append]
  rcases year with _ | ⟨a, _ | ⟨b, year⟩⟩
  · cases hyear
  · cases hyear
  · refine ⟨?_, not_mem_decimal_of_foreign hdigits (List.cons_ne_nil _ _) (by decide) (by decide)
      (by decide)⟩
    have hb := hdigits b (List.mem_cons_of_mem _ List.mem_cons_self)
    rintro z (hz | ⟨ds, hds, -⟩ | ⟨ds, hds, -⟩)
    · exact not_isInteger_of_foreign hdigits (List.cons_ne_nil _ _) (by decide) hz
    · obtain rfl := (List.cons.inj (List.cons.inj hds).2).1
      cases hb
    · obtain rfl := (List.cons.inj (List.cons.inj hds).2).1
      cases hb

/-! ## Resolution -/

theorem ofPlain_of_integer (h : SpellsInteger s.toList z ∧ IsWide z) : Value.ofPlain s = .int z := by
  rw [ofPlain_of_not_word fun hword => (not_of_word hword).1 z h, integer?_eq_some_iff.2 h]

theorem ofPlain_of_decimal (h : s.toList ∈ (signed decimal).matches')
    (hz : ∀ z, ¬ (IsInteger 10 s.toList z ∧ IsWide z)) : ∃ x, Value.ofPlain s = .float x := by
  have hnone : integer? s.toList = none := by
    refine Option.eq_none_iff_forall_ne_some.2 fun z hinteger => ?_
    obtain ⟨hspells, hwide⟩ := integer?_eq_some_iff.1 hinteger
    exact hz z ⟨isInteger_of_decimal h hspells, hwide⟩
  obtain ⟨d, hd⟩ := Option.isSome_iff_exists.1 (mem_signed_decimal.1 h)
  rw [ofPlain_of_not_word fun hword => (not_of_word hword).2.1 h, hnone, hd]
  exact ⟨_, rfl⟩

theorem ofPlain_of_timestamp (h : IsTimestamp s.toList) : Value.ofPlain s = .date s := by
  obtain ⟨hspells, hdecimal⟩ := not_of_timestamp h
  have hnone : integer? s.toList = none := by
    refine Option.eq_none_iff_forall_ne_some.2 fun z hz => ?_
    exact hspells z (integer?_eq_some_iff.1 hz).1
  have hparts : Value.decimalParts? (Value.splitSign s.toList).2 = none := by
    rwa [mem_signed_decimal, Option.not_isSome_iff_eq_none] at hdecimal
  rw [ofPlain_of_not_word fun hword => (not_of_word hword).2.2 h, hnone, hparts]
  exact if_pos (isDate_iff.2 h)

theorem ofPlain_of_nullWord (h : s ∈ nullWords) : Value.ofPlain s = .null := by
  have hall : ∀ w ∈ nullWords, Value.ofPlain w = .null := by decide
  exact hall s h

theorem ofPlain_of_boolWord {b : Bool} (h : s ∈ boolWords b) : Value.ofPlain s = .bool b := by
  have hall : ∀ b, ∀ w ∈ boolWords b, Value.ofPlain w = .bool b := by decide
  exact hall b s h

theorem ofPlain_of_floatWord (h : s ∈ floatWords) : ∃ x, Value.ofPlain s = .float x := by
  have hall : ∀ w ∈ floatWords, ∃ x ∈ [.infinity false, .infinity true, .nan],
      Value.ofPlain w = .float x := by decide
  obtain ⟨x, -, hx⟩ := hall s h
  exact ⟨x, hx⟩

/-- What a text can be resolved to. -/
inductive Resolves (s : String) : Value → Prop
  | null : s ∈ nullWords → Resolves s .null
  | bool {b : Bool} : s ∈ boolWords b → Resolves s (.bool b)
  | word {x : Double} : s ∈ floatWords → Resolves s (.float x)
  | int {z : ℤ} : SpellsInteger s.toList z ∧ IsWide z → Resolves s (.int z)
  | decimal {x : Double} : s.toList ∈ (signed decimal).matches' →
      (∀ z, ¬ (IsInteger 10 s.toList z ∧ IsWide z)) → Resolves s (.float x)
  | date : IsTimestamp s.toList → Resolves s (.date s)
  | text : s ∉ words → (∀ z, ¬ (SpellsInteger s.toList z ∧ IsWide z)) →
      s.toList ∉ (signed decimal).matches' → ¬ IsTimestamp s.toList → Resolves s (.text s)

theorem resolves_ofPlain (s : String) : Resolves s (Value.ofPlain s) := by
  by_cases hword : s ∈ words
  · rcases mem_words_iff.1 hword with hword | ⟨b, hword⟩ | hword
    · rw [ofPlain_of_nullWord hword]
      exact .null hword
    · rw [ofPlain_of_boolWord hword]
      exact .bool hword
    · obtain ⟨x, hx⟩ := ofPlain_of_floatWord hword
      rw [hx]
      exact .word hword
  · rw [ofPlain_of_not_word hword]
    rcases hinteger : integer? s.toList with _ | z
    · have hspells : ∀ z, ¬ (SpellsInteger s.toList z ∧ IsWide z) := fun z hz => by
        rw [← integer?_eq_some_iff, hinteger] at hz
        cases hz
      have hdecimal := @mem_signed_decimal s.toList
      rcases hparts : Value.decimalParts? (Value.splitSign s.toList).2 with _ | d
      · rw [hparts] at hdecimal
        have hnot : s.toList ∉ (signed decimal).matches' := fun hmem => nomatch hdecimal.1 hmem
        dsimp only
        split_ifs with hdate
        · exact .date (isDate_iff.1 hdate)
        · exact .text hword hspells hnot (isDate_iff.not.1 hdate)
      · rw [hparts] at hdecimal
        exact .decimal (hdecimal.2 rfl) fun z hz => hspells z ⟨.inl hz.1, hz.2⟩
    · exact .int (integer?_eq_some_iff.1 hinteger)

theorem ofPlain_eq_null_iff : Value.ofPlain s = .null ↔ s ∈ nullWords := by
  refine ⟨fun h => ?_, ofPlain_of_nullWord⟩
  have hresolves := resolves_ofPlain s
  rw [h] at hresolves
  cases hresolves with
  | null hword => exact hword

theorem ofPlain_eq_bool_iff {b : Bool} : Value.ofPlain s = .bool b ↔ s ∈ boolWords b := by
  refine ⟨fun h => ?_, ofPlain_of_boolWord⟩
  have hresolves := resolves_ofPlain s
  rw [h] at hresolves
  cases hresolves with
  | bool hword => exact hword

theorem ofPlain_eq_float_iff : (∃ x, Value.ofPlain s = .float x) ↔ s ∈ floatWords ∨
    s.toList ∈ (signed decimal).matches' ∧ ∀ z, ¬ (IsInteger 10 s.toList z ∧ IsWide z) := by
  constructor
  · rintro ⟨x, hx⟩
    have hresolves := resolves_ofPlain s
    rw [hx] at hresolves
    cases hresolves with
    | word hword => exact .inl hword
    | decimal hmem hz => exact .inr ⟨hmem, hz⟩
  · rintro (hword | ⟨hmem, hz⟩)
    · exact ofPlain_of_floatWord hword
    · exact ofPlain_of_decimal hmem hz

theorem ofPlain_eq_int_iff : Value.ofPlain s = .int z ↔ SpellsInteger s.toList z ∧ IsWide z := by
  refine ⟨fun h => ?_, ofPlain_of_integer⟩
  have hresolves := resolves_ofPlain s
  rw [h] at hresolves
  cases hresolves with
  | int hz => exact hz

theorem ofPlain_eq_date_iff : Value.ofPlain s = .date t ↔ t = s ∧ IsTimestamp s.toList := by
  constructor
  · intro h
    have hresolves := resolves_ofPlain s
    rw [h] at hresolves
    cases hresolves with
    | date hstamp => exact ⟨rfl, hstamp⟩
  · rintro ⟨rfl, hstamp⟩
    exact ofPlain_of_timestamp hstamp

/-- A text stays one if it is nothing else. -/
theorem ofPlain_eq_text_iff : Value.ofPlain s = .text t ↔ t = s ∧ s ∉ words ∧
    (∀ z, ¬ (SpellsInteger s.toList z ∧ IsWide z)) ∧ s.toList ∉ (signed decimal).matches' ∧
    ¬ IsTimestamp s.toList := by
  have hresolves := resolves_ofPlain s
  constructor
  · intro h
    rw [h] at hresolves
    cases hresolves with
    | text hword hz hdecimal hstamp => exact ⟨rfl, hword, hz, hdecimal, hstamp⟩
  · rintro ⟨rfl, hword, hz, hdecimal, hstamp⟩
    generalize Value.ofPlain t = v at hresolves ⊢
    cases hresolves with
    | null h => exact absurd (mem_words_iff.2 (.inl h)) hword
    | bool h => exact absurd (mem_words_iff.2 (.inr (.inl ⟨_, h⟩))) hword
    | word h => exact absurd (mem_words_iff.2 (.inr (.inr h))) hword
    | int h => exact absurd h (hz _)
    | decimal h _ => exact absurd h hdecimal
    | date h => exact absurd h hstamp
    | text => rfl

/-- **Plain scalars.** A text is null or a truth value if it is one of the words; a float if it is one of
the words or an optionally signed decimal number, and not an integer of 64 bits; an integer if it spells
one; a date if it is a timestamp; and itself otherwise. Each integer of 64 bits comes back from its
literal. -/
theorem ofPlain_kind (s : String) :
    (Value.ofPlain s = .null ↔ s ∈ nullWords) ∧
      (∀ b, Value.ofPlain s = .bool b ↔ s ∈ boolWords b) ∧
      ((∃ x, Value.ofPlain s = .float x) ↔ s ∈ floatWords ∨
        s.toList ∈ (signed decimal).matches' ∧ ∀ z, ¬ (IsInteger 10 s.toList z ∧ IsWide z)) ∧
      (∀ z, Value.ofPlain s = .int z ↔ SpellsInteger s.toList z ∧ IsWide z) ∧
      (∀ t, Value.ofPlain s = .date t ↔ t = s ∧ IsTimestamp s.toList) ∧
      (∀ t, Value.ofPlain s = .text t ↔ t = s ∧ s ∉ words ∧
        (∀ z, ¬ (SpellsInteger s.toList z ∧ IsWide z)) ∧ s.toList ∉ (signed decimal).matches' ∧
        ¬ IsTimestamp s.toList) ∧
      ∀ n : Int64, Value.ofPlain (Value.int n.toInt).literal = .int n.toInt :=
  ⟨ofPlain_eq_null_iff, fun _ => ofPlain_eq_bool_iff, ofPlain_eq_float_iff, fun _ => ofPlain_eq_int_iff,
    fun _ => ofPlain_eq_date_iff, fun _ => ofPlain_eq_text_iff,
    fun n => Value.ofPlain_toString (fits64_toInt n)⟩

end Polyglot.Data
