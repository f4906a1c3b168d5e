import Mathlib.Algebra.Order.Group.Nat
import Polyglot.Number.Double

/-!
# Shortest digits

The search for the fewest digits of a double ends with a positive number (`shortest_pos`): whatever grid
gives a number gives a positive one, and the last grid that is tried is no coarser than a quarter of the
double's last bit, so that a number of it lies in the interval that rounds to the double.
-/

namespace Polyglot.Double

variable {x : Double} {g : ℤ} {k n : ℕ}

/-! ## Significand and exponent -/

theorem decode_pos (h : x.magnitude ≠ 0) : 0 < x.decode.1 := by
  unfold decode
  dsimp only
  split_ifs <;> dsimp only <;> omega

theorem log2_decode_le (h : x.magnitude ≠ 0) : x.decode.1.log2 ≤ 52 := by
  have hlt : x.decode.1 < 2 ^ 53 := by
    unfold decode
    dsimp only
    split_ifs <;> dsimp only <;> omega
  exact Nat.le_of_lt_succ ((Nat.log2_lt (decode_pos h).ne').2 hlt)

theorem decode_exponent (h : x.isFinite = true) : -1074 ≤ x.decode.2 ∧ x.decode.2 ≤ 971 := by
  have hlt : x.magnitude < 0x7FF * 0x10000000000000 := of_decide_eq_true h
  unfold decode
  dsimp only
  split_ifs
  · dsimp only
    omega
  · rw [Int.ofNat_eq_natCast]
    omega

/-! ## One grid

The search counts in units in which both a quarter of the double's last bit and a step of the grid are
whole numbers. -/

theorem scaled_pos {base : ℕ} (hbase : 0 < base) (e : ℤ) :
    0 < (scaled 1 base e).1 ∧ 0 < (scaled 1 base e).2 :=
  ⟨Nat.mul_pos Nat.one_pos (Nat.pow_pos hbase), Nat.pow_pos hbase⟩

/-- A quarter of the last bit of `x`. -/
def quarter (x : Double) (g : ℤ) : ℕ := (scaled 1 2 (x.decode.2 - 2)).1 * (scaled 1 10 g).2

/-- The distance of two numbers of the grid. -/
def gridStep (x : Double) (g : ℤ) : ℕ := (scaled 1 10 g).1 * (scaled 1 2 (x.decode.2 - 2)).2

/-- The double itself. -/
def gridValue (x : Double) (g : ℤ) : ℕ := 4 * x.decode.1 * x.quarter g

/-- Number `k` of the grid lies in the interval that rounds to `x`. -/
def roundsFrom (x : Double) (g : ℤ) (k : ℕ) : Bool :=
  let low := (4 * x.decode.1 - x.slackBelow) * x.quarter g
  let high := (4 * x.decode.1 + 2) * x.quarter g
  if x.decode.1 % 2 = 0 then low ≤ k * x.gridStep g && k * x.gridStep g ≤ high
  else low < k * x.gridStep g && k * x.gridStep g < high

/-- One of the two numbers of the grid around `x` is taken. -/
theorem onGrid?_eq (x : Double) (g : ℤ) : x.onGrid? g =
    let k := x.gridValue g / x.gridStep g
    match x.roundsFrom g k, x.roundsFrom g (k + 1) with
    | true, true =>
      if x.gridValue g - k * x.gridStep g < (k + 1) * x.gridStep g - x.gridValue g then some k
      else some (k + 1)
    | true, false => some k
    | false, true => some (k + 1)
    | false, false => none := by
  simp only [roundsFrom, gridValue, quarter, ← Nat.mul_assoc]
  rfl

theorem roundsFrom_of_onGrid? (h : x.onGrid? g = some k) : x.roundsFrom g k = true := by
  rw [onGrid?_eq] at h
  dsimp only at h
  split at h
  next hk hnext =>
    split_ifs at h
    · exact Option.some.inj h ▸ hk
    · exact Option.some.inj h ▸ hnext
  next hk _ => exact Option.some.inj h ▸ hk
  next _ hnext => exact Option.some.inj h ▸ hnext
  next => cases h

theorem isSome_onGrid? (h : x.roundsFrom g (x.gridValue g / x.gridStep g + 1) = true) :
    (x.onGrid? g).isSome = true := by
  rw [onGrid?_eq]
  dsimp only
  rw [h]
  split
  · split_ifs <;> rfl
  all_goals simp_all

theorem quarter_pos (x : Double) (g : ℤ) : 0 < x.quarter g :=
  Nat.mul_pos (scaled_pos (by decide) _).1 (scaled_pos (by decide) _).2

theorem slackBelow_le (x : Double) : x.slackBelow ≤ 2 := by
  unfold slackBelow
  split_ifs <;> decide

theorem pos_of_roundsFrom (hx : x.magnitude ≠ 0) (h : x.roundsFrom g k = true) : 0 < k := by
  have hm := decode_pos hx
  have hslack := x.slackBelow_le
  have hlow : 0 < (4 * x.decode.1 - x.slackBelow) * x.quarter g :=
    Nat.mul_pos (by omega) (x.quarter_pos g)
  rcases Nat.eq_zero_or_pos k with rfl | hk
  · simp only [roundsFrom, Nat.zero_mul] at h
    split_ifs at h
    · exact absurd (of_decide_eq_true (Bool.and_eq_true_iff.1 h).1) (Nat.not_le_of_gt hlow)
    · exact absurd (of_decide_eq_true (Bool.and_eq_true_iff.1 h).1) (Nat.not_lt_zero _)
  · exact hk

/-- If the grid is no coarser than a quarter of the last bit, the number above `x` is near enough. -/
theorem roundsFrom_succ (h : x.gridStep g ≤ x.quarter g) :
    x.roundsFrom g (x.gridValue g / x.gridStep g + 1) = true := by
  have hstep : 0 < x.gridStep g := Nat.mul_pos (scaled_pos (by decide) _).1 (scaled_pos (by decide) _).2
  have hquarter := x.quarter_pos g
  have habove : x.gridValue g < (x.gridValue g / x.gridStep g + 1) * x.gridStep g :=
    Nat.lt_mul_of_div_lt (Nat.lt_succ_self _) hstep
  have hbelow : x.gridValue g / x.gridStep g * x.gridStep g ≤ x.gridValue g :=
    Nat.div_mul_le_self _ _
  have hlow : (4 * x.decode.1 - x.slackBelow) * x.quarter g ≤ x.gridValue g :=
    Nat.mul_le_mul_right _ (Nat.sub_le _ _)
  have hhigh : (4 * x.decode.1 + 2) * x.quarter g = x.gridValue g + 2 * x.quarter g :=
    Nat.add_mul _ _ _
  rw [Nat.add_mul, Nat.one_mul] at habove
  rw [roundsFrom]
  simp only [hhigh, Nat.add_mul, Nat.one_mul]
  split_ifs <;> simp <;> omega

/-! ## All grids -/

theorem onGrid?_firstGrid (h : ∃ i : ℕ, i < n ∧ (x.onGrid? (g - i)).isSome = true) :
    x.onGrid? (x.firstGrid g n).2 = some (x.firstGrid g n).1 := by
  induction n generalizing g with
  | zero =>
    obtain ⟨i, hi, -⟩ := h
    exact absurd hi (Nat.not_lt_zero i)
  | succ n ih =>
    rw [firstGrid]
    rcases hgrid : x.onGrid? g with _ | k
    · refine ih ?_
      obtain ⟨i, hi, hsome⟩ := h
      cases i with
      | zero =>
        rw [Int.natCast_zero, Int.sub_zero, hgrid] at hsome
        cases hsome
      | succ i =>
        refine ⟨i, Nat.lt_of_succ_lt_succ hi, ?_⟩
        rwa [Int.sub_sub, Int.add_comm, ← Int.natCast_succ]
    · exact hgrid

/-! ## The last grid -/

/-- Three powers of ten are less than ten powers of two. -/
theorem ten_pow_le {m n : ℕ} (h : 10 * m ≤ 3 * n) : 10 ^ m ≤ 2 ^ n := by
  refine (Nat.pow_le_pow_iff_left (n := 3) (by decide)).1 ?_
  calc (10 ^ m) ^ 3 = (10 ^ 3) ^ m := by rw [← pow_mul, ← pow_mul, Nat.mul_comm]
    _ ≤ (2 ^ 10) ^ m := Nat.pow_le_pow_left (by decide) m
    _ = 2 ^ (10 * m) := by rw [← pow_mul]
    _ ≤ 2 ^ (3 * n) := Nat.pow_le_pow_right (by decide) h
    _ = (2 ^ n) ^ 3 := by rw [← pow_mul, Nat.mul_comm]

/-- Thirty-three powers of two are less than ten powers of ten. -/
theorem two_pow_le {m n : ℕ} (h : 10 * n ≤ 33 * m) : 2 ^ n ≤ 10 ^ m := by
  refine (Nat.pow_le_pow_iff_left (n := 10) (by decide)).1 ?_
  calc (2 ^ n) ^ 10 = 2 ^ (10 * n) := by rw [← pow_mul, Nat.mul_comm]
    _ ≤ 2 ^ (33 * m) := Nat.pow_le_pow_right (by decide) h
    _ = (2 ^ 33) ^ m := by rw [← pow_mul]
    _ ≤ (10 ^ 10) ^ m := Nat.pow_le_pow_left (by decide) m
    _ = (10 ^ m) ^ 10 := by rw [← pow_mul, ← pow_mul, Nat.mul_comm]

/-- The first grid that the search tries, before any is found too coarse. -/
def topGrid (x : Double) : ℤ := ((x.decode.1.log2 : ℤ) + x.decode.2) * 30103 / 100000 + 2

/-- With at most 53 bits, 23 digits below the first grid are well past a quarter of the last bit. -/
theorem gridStep_last (hx : x.magnitude ≠ 0) (hfinite : x.isFinite = true) :
    x.gridStep (x.topGrid - 23) ≤ x.quarter (x.topGrid - 23) := by
  have hlog := log2_decode_le hx
  obtain ⟨hlo, hhi⟩ := decode_exponent hfinite
  have htop : x.topGrid - 23 ≤ (52 + x.decode.2) * 30103 / 100000 - 21 := by
    unfold topGrid
    omega
  generalize x.topGrid - 23 = g at htop ⊢
  show 1 * 10 ^ g.toNat * 2 ^ (-(x.decode.2 - 2)).toNat ≤
    1 * 2 ^ (x.decode.2 - 2).toNat * 10 ^ (-g).toNat
  rw [Nat.one_mul, Nat.one_mul]
  rcases le_or_gt 2 x.decode.2 with hq | hq
  · have hzero : (-(x.decode.2 - 2)).toNat = 0 := by omega
    rw [hzero, pow_zero, Nat.mul_one]
    exact (ten_pow_le (by omega)).trans (Nat.le_mul_of_pos_right _ (Nat.pow_pos (by decide)))
  · have hzero : g.toNat = 0 := by omega
    rw [hzero, pow_zero, Nat.one_mul]
    exact (two_pow_le (by omega)).trans (Nat.le_mul_of_pos_left _ (Nat.pow_pos (by decide)))

/-- **The search ends.** The digits that are found stand for a positive number. -/
theorem shortest_pos (hx : x.magnitude ≠ 0) (hfinite : x.isFinite = true) : 0 < x.shortest.1 := by
  have hlast := isSome_onGrid? (roundsFrom_succ (gridStep_last hx hfinite))
  have hfound : x.onGrid? x.shortest.2 = some x.shortest.1 :=
    onGrid?_firstGrid ⟨23, Nat.lt_succ_self 23, hlast⟩
  exact pos_of_roundsFrom hx (roundsFrom_of_onGrid? hfound)

end Polyglot.Double
