import Mathlib.Data.List.DropRight
import Polyglot.Number.Text
import Polyglot.Proofs.Number.Shortest
import Polyglot.Proofs.Typed.Lexeme

/-!
# Texts of numbers

Integers and finite doubles are written as decimal numbers of the typed language, with a minus in front
if they are negative. For a double this takes that its shortest digits do not begin with a zero
(`leads_trimZeros`); where the point stands among them and whether there is an exponent is not known.
-/

namespace Polyglot

open Typed

variable {n : ℕ} {c : Char} {cs ds : List Char}

/-! ## Digits -/

theorem isDigits_toDigits (n : ℕ) : IsDigits (Nat.toDigits 10 n) :=
  ⟨Nat.toDigits_ne_nil, fun _ hc => Nat.isDigit_of_mem_toDigits (by decide) (by decide) hc⟩

theorem head_toDigits (h : 0 < n) : (Nat.toDigits 10 n).head? ≠ some '0' := by
  induction n using Nat.strong_induction_on with
  | _ n ih =>
    rcases Nat.lt_or_ge n 10 with hlt | hge
    · have hdigit : ∀ m < 10, 0 < m → [Nat.digitChar m].head? ≠ some '0' := by decide
      rw [Nat.toDigits_of_lt_base hlt]
      exact hdigit n hlt h
    · rw [Nat.toDigits_of_base_le (by decide) hge, List.head?_append_of_ne_nil _ Nat.toDigits_ne_nil]
      exact ih (n / 10) (by omega) (by omega)

/-- Digits that do not begin with a zero. -/
structure Leads (ds : List Char) : Prop extends IsDigits ds where
  head : ds.head? ≠ some '0'

theorem leads_toDigits (h : 0 < n) : Leads (Nat.toDigits 10 n) := ⟨isDigits_toDigits n, head_toDigits h⟩

theorem Leads.append (h : Leads ds) (hcs : ∀ c ∈ cs, c.isDigit = true) : Leads (ds ++ cs) where
  ne_nil := List.append_ne_nil_of_left_ne_nil h.ne_nil cs
  isDigit c hc := (List.mem_append.1 hc).elim (h.isDigit c) (hcs c)
  head := by
    rw [List.head?_append_of_ne_nil _ h.ne_nil]
    exact h.head

theorem Leads.of_prefix (h : Leads ds) (hcs : cs <+: ds) (hne : cs ≠ []) : Leads cs where
  ne_nil := hne
  isDigit c hc := h.isDigit c (hcs.subset hc)
  head := by
    obtain ⟨rest, rfl⟩ := hcs
    have hhead := h.head
    rwa [List.head?_append_of_ne_nil _ hne] at hhead

theorem isDigits_append (h : IsDigits ds) (hcs : ∀ c ∈ cs, c.isDigit = true) :
    IsDigits (cs ++ ds) where
  ne_nil := List.append_ne_nil_of_right_ne_nil cs h.ne_nil
  isDigit c hc := (List.mem_append.1 hc).elim (hcs c) (h.isDigit c)

theorem isDigit_of_mem_zeros (h : c ∈ List.replicate n '0') : c.isDigit = true := by
  rw [List.eq_of_mem_replicate h]
  decide

/-- Only zeros behind the first digit are left out. -/
theorem leads_trimZeros (h : 0 < n) (e : ℤ) : Leads (trimZeros n e).1 := by
  have hdigits := leads_toDigits h
  refine hdigits.of_prefix (List.rdropWhile_prefix _ _) fun hnil => ?_
  have hzeros := List.rdropWhile_eq_nil_iff.1 hnil
  rcases hds : Nat.toDigits 10 n with _ | ⟨d, ds⟩
  · exact Nat.toDigits_ne_nil hds
  · rw [hds] at hzeros hdigits
    have hd : d = '0' := by simpa using hzeros d List.mem_cons_self
    exact hdigits.head (congrArg some hd)

/-! ## The layout around the digits -/

theorem Leads.isWhole (h : Leads ds) : IsWhole ds := ⟨h.toIsDigits, fun hzero => absurd hzero h.head⟩

theorem isNumber_whole (h : IsWhole ds) : IsNumber ds := by
  have hnumber := IsNumber.mk h .none .none
  rwa [List.append_nil, List.append_nil] at hnumber

theorem isNumber_point (hwhole : IsWhole cs) (h : IsDigits ds) : IsNumber (cs ++ '.' :: ds) := by
  have hnumber := IsNumber.mk hwhole (.point h) .none
  rwa [List.append_nil] at hnumber

theorem isNumber_positional (h : Leads ds) (point : ℤ) : IsNumber (positional ds point) := by
  unfold positional
  split_ifs with hpoint hlength
  · exact @isNumber_point ['0'] _ ⟨isDigits_toDigits 0, fun _ => rfl⟩
      (isDigits_append h.toIsDigits fun _ => isDigit_of_mem_zeros)
  · exact isNumber_whole (h.append fun _ => isDigit_of_mem_zeros).isWhole
  · have htake : ds.take point.toNat ≠ [] := fun hnil =>
      (List.take_eq_nil_iff.1 hnil).elim (by omega) h.ne_nil
    have hdrop : ds.drop point.toNat ≠ [] := fun hnil =>
      absurd (List.drop_eq_nil_iff.1 hnil) (by omega)
    exact isNumber_point (h.of_prefix (List.take_prefix _ _) htake).isWhole
      ⟨hdrop, fun c hc => h.isDigit c (List.mem_of_mem_drop hc)⟩

theorem isExponent_power (exponent : ℤ) : IsExponent
    ('e' :: (if exponent < 0 then '-' else '+') :: Nat.toDigits 10 exponent.natAbs) := by
  split_ifs
  · exact @IsExponent.power 'e' ['-'] _ (by decide) (by decide) (isDigits_toDigits _)
  · exact @IsExponent.power 'e' ['+'] _ (by decide) (by decide) (isDigits_toDigits _)

theorem isNumber_exponential (h : Leads ds) (exponent : ℤ) : IsNumber (exponential ds exponent) := by
  have hexponent := isExponent_power exponent
  unfold exponential
  dsimp only
  split
  next d e rest =>
    have hd : IsWhole [d] := (h.of_prefix ⟨e :: rest, rfl⟩ (by simp)).isWhole
    have hfraction : IsFraction ('.' :: e :: rest) :=
      .point ⟨by simp, fun c hc => h.isDigit c (.tail d hc)⟩
    exact .mk hd hfraction hexponent
  · exact .mk h.isWhole .none hexponent

/-! ## Numbers -/

theorem isNumber_toDigits (n : ℕ) : IsNumber (Nat.toDigits 10 n) := by
  rcases Nat.eq_zero_or_pos n with rfl | hn
  · exact isNumber_whole ⟨isDigits_toDigits 0, fun _ => rfl⟩
  · exact isNumber_whole (leads_toDigits hn).isWhole

theorem toList_toString (n : ℤ) : (toString n).toList =
    if n < 0 then '-' :: Nat.toDigits 10 n.natAbs else Nat.toDigits 10 n.natAbs := by
  rw [Int.toString_eq_repr, Int.repr_eq_if]
  split_ifs with hnonneg hneg hneg
  · omega
  · rw [Nat.toList_repr]
    congr 1
    omega
  · rw [String.toList_append, Nat.toList_repr]
    show '-' :: Nat.toDigits 10 (-n).toNat = _
    congr 2
    omega
  · omega

/-- **A finite double is a number**, whatever the layout. -/
theorem NumberFormat.write_finite (f : NumberFormat) {x : Double} (h : x.isFinite = true) :
    ∃ body, IsNumber body ∧
      (f.write x).toList = if x.isNegative then '-' :: body else body := by
  have hnan : x.isNaN = false := by
    have hlt : x.magnitude < Double.infiniteBits := of_decide_eq_true h
    exact decide_eq_false (by omega)
  have hbody : ∃ body : String, IsNumber body.toList ∧
      f.write x = if x.isNegative then "-" ++ body else body := by
    unfold write
    simp only [hnan, h, Bool.false_eq_true, if_false, not_true_eq_false]
    have hleads (hx : x.magnitude ≠ 0) : Leads (trimZeros x.shortest.1 x.shortest.2).1 :=
      leads_trimZeros (Double.shortest_pos hx h) _
    refine ⟨_, ?_, rfl⟩
    split_ifs with hzero
    · exact isNumber_toDigits 0
    · rw [String.toList_ofList]
      exact isNumber_positional (hleads hzero) _
    · rw [String.toList_ofList]
      exact isNumber_exponential (hleads hzero) _
  obtain ⟨body, hbody, hwrite⟩ := hbody
  refine ⟨body.toList, hbody, ?_⟩
  rw [hwrite]
  split_ifs
  · rw [String.toList_append]
    rfl
  · rfl

theorem NumberFormat.write_of_not_isFinite (f : NumberFormat) {x : Double} (h : x.isFinite = false) :
    f.write x ∈ [f.nan, f.infinity, "-" ++ f.infinity] := by
  unfold write
  simp only [h, Bool.false_eq_true, not_false_eq_true, if_true]
  split_ifs <;> simp

end Polyglot
