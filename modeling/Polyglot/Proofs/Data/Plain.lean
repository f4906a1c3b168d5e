import Polyglot.Data.Scalar
import Polyglot.Proofs.Number.Text

/-!
# Plain words

An integer of 64 bits resolves from its digits (`Value.ofPlain_toString`), and the words that stand for
null and the truth values resolve to them.
-/

namespace Polyglot

variable {n : ℕ} {c : Char} {cs ds : List Char}

/-! ## Digits -/

namespace Text

theorem spelledFrom?_append (base n : ℕ) (cs ds : List Char) :
    spelledFrom? base n (cs ++ ds) =
      (spelledFrom? base n cs).bind fun m => spelledFrom? base m ds := by
  induction cs generalizing n with
  | nil => rfl
  | cons c cs ih =>
    rw [List.cons_append, spelledFrom?, spelledFrom?]
    rcases digit? base c with _ | d
    · rfl
    · exact ih _

theorem digit?_digitChar (h : n < 10) : digit? 10 (Nat.digitChar n) = some n := by
  have hall : ∀ n < 10, digit? 10 (Nat.digitChar n) = some n := by decide
  exact hall n h

theorem spelledFrom?_toDigits (n : ℕ) : spelledFrom? 10 0 (Nat.toDigits 10 n) = some n := by
  induction n using Nat.strong_induction_on with
  | _ n ih =>
    rcases Nat.lt_or_ge n 10 with hlt | hge
    · rw [Nat.toDigits_of_lt_base hlt, spelledFrom?, digit?_digitChar hlt]
      simp [spelledFrom?]
    · have hlast : n % 10 < 10 := Nat.mod_lt n (by decide)
      rw [Nat.toDigits_of_base_le (by decide) hge, spelledFrom?_append, ih (n / 10) (by omega),
        Option.bind_some, spelledFrom?, digit?_digitChar hlast, Option.bind_some, spelledFrom?,
        Nat.div_add_mod]

theorem spelled?_toDigits (n : ℕ) : spelled? 10 (Nat.toDigits 10 n) = some n := by
  rw [spelled?, if_neg (by simp), spelledFrom?_toDigits]

end Text

namespace Data.Value

/-! ## Integers -/

/-- A digit, or the minus in front of digits. -/
def isDigitOrMinus (c : Char) : Bool := c.isDigit || c == '-'

theorem all_isDigitOrMinus_toString (n : ℤ) : (toString n).toList.all isDigitOrMinus = true := by
  have hdigits : (Nat.toDigits 10 n.natAbs).all isDigitOrMinus = true :=
    List.all_eq_true.2 fun c hc => by
      rw [isDigitOrMinus, (isDigits_toDigits n.natAbs).isDigit c hc, Bool.true_or]
  rw [toList_toString]
  split_ifs
  · exact hdigits
  · exact hdigits

theorem toString_ne_nil (n : ℤ) : (toString n).toList ≠ [] := by
  rw [toList_toString]
  split_ifs
  · exact List.cons_ne_nil _ _
  · exact Nat.toDigits_ne_nil

/-- No listed word is made of digits. -/
theorem contains_toString (n : ℤ) (words : List String)
    (hwords : words.all (fun w => w.toList.isEmpty || !w.toList.all isDigitOrMinus) = true) :
    words.contains (toString n) = false := by
  rw [List.contains_eq_mem, decide_eq_false_iff_not]
  intro hmem
  have hword := List.all_eq_true.1 hwords _ hmem
  rw [all_isDigitOrMinus_toString, Bool.not_true, Bool.or_false, List.isEmpty_iff] at hword
  exact toString_ne_nil n hword

theorem splitSign_toDigits (n : ℕ) :
    splitSign (Nat.toDigits 10 n) = (false, Nat.toDigits 10 n) := by
  have hdigits := (isDigits_toDigits n).isDigit
  unfold splitSign
  split
  · next heq => exact absurd (hdigits '-' (heq ▸ List.mem_cons_self)) (by decide)
  · next heq => exact absurd (hdigits '+' (heq ▸ List.mem_cons_self)) (by decide)
  · rfl

theorem splitSign_toString (n : ℤ) :
    splitSign (toString n).toList = (decide (n < 0), Nat.toDigits 10 n.natAbs) := by
  rw [toList_toString]
  split_ifs with hneg
  · rw [decide_eq_true hneg]
    rfl
  · rw [splitSign_toDigits, decide_eq_false hneg]

theorem signed?_toString {n : ℤ} (h : fits64 n = true) :
    signed? 10 (toString n).toList = some n := by
  have habs : (if decide (n < 0) = true then -(n.natAbs : ℤ) else (n.natAbs : ℤ)) = n := by
    split_ifs with hneg
    · have := of_decide_eq_true hneg
      omega
    · rw [decide_eq_true_eq] at hneg
      omega
  rw [signed?, splitSign_toString]
  dsimp only
  rw [Text.spelled?_toDigits, Option.bind_some, habs, if_pos h]

/-- **Integers.** An integer of 64 bits resolves from its text. -/
theorem ofPlain_toString {n : ℤ} (h : fits64 n = true) : ofPlain (toString n) = .int n := by
  have hall := List.all_eq_true.1 (all_isDigitOrMinus_toString n)
  unfold ofPlain
  simp only [contains_toString n ["", "~", "null", "Null", "NULL"] (by decide),
    contains_toString n ["true", "True", "TRUE"] (by decide),
    contains_toString n ["false", "False", "FALSE"] (by decide),
    contains_toString n [".inf", ".Inf", ".INF", "+.inf", "+.Inf", "+.INF"] (by decide),
    contains_toString n ["-.inf", "-.Inf", "-.INF"] (by decide),
    contains_toString n [".nan", ".NaN", ".NAN"] (by decide), Bool.false_eq_true, if_false]
  rw [signed?_toString h]
  split
  · next m heq =>
    split at heq
    · next digits hcs => exact absurd (hall 'x' (by rw [hcs]; simp)) (by decide)
    · next digits hcs => exact absurd (hall 'o' (by rw [hcs]; simp)) (by decide)
    · rw [Option.some.inj heq]
  · next heq => exact absurd (Option.or_eq_none_iff.1 heq).2 (by simp)

end Data.Value

end Polyglot
