import Mathlib.Data.Int.Log
import Mathlib.Tactic

/-!
# Rounding to 24 significant bits

The operations of IEEE single precision on positive normal numbers: the exact
result is rounded to a multiple of `ulp`, to the nearest one and to the even one of
two.  Rounding is monotone and leaves every number with at most 24 significant bits
as it is; both facts together bound the rounded result of an inexact operation.

Overflow and underflow are left out.
-/

namespace Binary32

/-- The nearest integer, the even one of two. -/
def roundEven (x : ℚ) : ℤ :=
  if x - ⌊x⌋ < 1 / 2 then ⌊x⌋
  else if 1 / 2 < x - ⌊x⌋ then ⌊x⌋ + 1
  else if ⌊x⌋ % 2 = 0 then ⌊x⌋
  else ⌊x⌋ + 1

@[simp]
theorem roundEven_intCast (n : ℤ) : roundEven n = n := by
  simp [roundEven]

theorem roundEven_mem (x : ℚ) : roundEven x = ⌊x⌋ ∨ roundEven x = ⌊x⌋ + 1 := by
  unfold roundEven
  split
  · exact Or.inl rfl
  · split
    · exact Or.inr rfl
    · split
      · exact Or.inl rfl
      · exact Or.inr rfl

theorem roundEven_mono {x y : ℚ} (h : x ≤ y) : roundEven x ≤ roundEven y := by
  have hFloor : ⌊x⌋ ≤ ⌊y⌋ := Int.floor_mono h
  rcases hFloor.lt_or_eq with hLess | hEq
  · have hLeft := roundEven_mem x
    have hRight := roundEven_mem y
    omega
  · have hFrac : x - ⌊x⌋ ≤ y - ⌊y⌋ := by
      rw [hEq]
      linarith
    unfold roundEven
    rw [hEq] at hFrac ⊢
    split_ifs <;> first | omega | (exfalso; linarith)

theorem roundEven_sub_le (x : ℚ) : x - roundEven x ≤ 1 / 2 := by
  have hFloor := Int.floor_le x
  have hNext := Int.lt_floor_add_one x
  unfold roundEven
  split_ifs with h₁ h₂ h₃
  · linarith
  · push_cast
    linarith
  · linarith
  · push_cast
    linarith

/-- The distance of neighbouring numbers with 24 significant bits around `x`. -/
def ulp (x : ℚ) : ℚ :=
  (2 : ℚ) ^ (Int.log 2 x - 23)

theorem ulp_pos (x : ℚ) : 0 < ulp x := by
  unfold ulp
  positivity

/-- `x` in single precision. -/
def round (x : ℚ) : ℚ :=
  roundEven (x / ulp x) * ulp x

theorem round_of_log {x : ℚ} {e : ℤ} (hLow : (2 : ℚ) ^ e ≤ x) (hHigh : x < (2 : ℚ) ^ (e + 1)) :
    round x = roundEven (x / (2 : ℚ) ^ (e - 23)) * (2 : ℚ) ^ (e - 23) := by
  have hPos : 0 < x := lt_of_lt_of_le (by positivity) hLow
  have hLog : Int.log 2 x = e := by
    apply le_antisymm
    · by_contra hMore
      have hPow : (2 : ℚ) ^ (e + 1) ≤ (2 : ℚ) ^ Int.log 2 x :=
        zpow_le_zpow_right₀ (by norm_num) (by omega)
      have hBelow : (2 : ℚ) ^ Int.log 2 x ≤ x := by
        exact_mod_cast Int.zpow_log_le_self (R := ℚ) one_lt_two hPos
      linarith
    · by_contra hLess
      have hPow : (2 : ℚ) ^ (Int.log 2 x + 1) ≤ (2 : ℚ) ^ e :=
        zpow_le_zpow_right₀ (by norm_num) (by omega)
      have hAbove : x < (2 : ℚ) ^ (Int.log 2 x + 1) := by
        exact_mod_cast Int.lt_zpow_succ_log_self (R := ℚ) one_lt_two x
      linarith
  rw [round, ulp, hLog]

private theorem log_bounds {x : ℚ} (hx : 0 < x) :
    (2 : ℚ) ^ Int.log 2 x ≤ x ∧ x < (2 : ℚ) ^ (Int.log 2 x + 1) := by
  constructor
  · exact_mod_cast Int.zpow_log_le_self (R := ℚ) one_lt_two hx
  · exact_mod_cast Int.lt_zpow_succ_log_self (R := ℚ) one_lt_two x

/-- A number of 24 significant bits is not changed. -/
theorem round_exact (m : ℕ) (k : ℤ) (hm : m < 2 ^ 24) :
    round (m * (2 : ℚ) ^ k) = m * (2 : ℚ) ^ k := by
  rcases Nat.eq_zero_or_pos m with rfl | hPos
  · have hZero : roundEven 0 = 0 := by simpa using roundEven_intCast 0
    simp [round, hZero]
  have hLog : Nat.log 2 m ≤ 23 := by
    have : Nat.log 2 m < 24 := Nat.log_lt_of_lt_pow (by omega) hm
    omega
  have hLow : (2 : ℚ) ^ (Nat.log 2 m : ℤ) ≤ m := by
    rw [zpow_natCast]
    exact_mod_cast Nat.pow_log_le_self 2 (by omega)
  have hHigh : (m : ℚ) < (2 : ℚ) ^ ((Nat.log 2 m : ℤ) + 1) := by
    have : m < 2 ^ (Nat.log 2 m + 1) := Nat.lt_pow_succ_log_self (by omega) m
    exact_mod_cast this
  have hScale : (0 : ℚ) < (2 : ℚ) ^ k := by positivity
  have hRound := round_of_log (x := m * (2 : ℚ) ^ k) (e := Nat.log 2 m + k)
    (by rw [zpow_add₀ (by norm_num)]; exact mul_le_mul_of_nonneg_right hLow hScale.le)
    (by
      rw [show (Nat.log 2 m : ℤ) + k + 1 = (Nat.log 2 m + 1) + k by ring,
        zpow_add₀ (by norm_num)]
      exact mul_lt_mul_of_pos_right hHigh hScale)
  have hInteger : m * (2 : ℚ) ^ k / (2 : ℚ) ^ ((Nat.log 2 m : ℤ) + k - 23) =
      ((m * 2 ^ (23 - Nat.log 2 m) : ℕ) : ℤ) := by
    rw [div_eq_iff (by positivity)]
    push_cast
    rw [mul_assoc, ← zpow_natCast, ← zpow_add₀ (by norm_num : (2 : ℚ) ≠ 0)]
    congr 2
    omega
  rw [hRound, hInteger, roundEven_intCast, ← hInteger,
    div_mul_cancel₀ _ (by positivity)]

theorem round_natCast {n : ℕ} (hn : n < 2 ^ 24) : round n = n := by
  simpa using round_exact n 0 hn

theorem round_two_zpow (k : ℤ) : round ((2 : ℚ) ^ k) = (2 : ℚ) ^ k := by
  simpa using round_exact 1 k (by norm_num)

private theorem natPow_mul_zpow (n : ℕ) (e : ℤ) :
    (((2 : ℤ) ^ n : ℤ) : ℚ) * (2 : ℚ) ^ (e - 23) = (2 : ℚ) ^ (e + n - 23) := by
  rw [Int.cast_pow, Int.cast_ofNat, ← zpow_natCast, ← zpow_add₀ (by norm_num)]
  congr 1
  ring

private theorem log_le_round {x : ℚ} (hx : 0 < x) : (2 : ℚ) ^ Int.log 2 x ≤ round x := by
  have hScaled : (((2 : ℤ) ^ 23 : ℤ) : ℚ) ≤ x / ulp x := by
    rw [le_div_iff₀ (ulp_pos x), ulp, natPow_mul_zpow]
    simpa using (log_bounds hx).1
  have hRound := roundEven_mono hScaled
  rw [roundEven_intCast] at hRound
  have hCast : (((2 : ℤ) ^ 23 : ℤ) : ℚ) ≤ (roundEven (x / ulp x) : ℚ) :=
    Int.cast_le.mpr hRound
  calc (2 : ℚ) ^ Int.log 2 x = (((2 : ℤ) ^ 23 : ℤ) : ℚ) * ulp x := by
        rw [ulp, natPow_mul_zpow]
        simp
    _ ≤ round x := mul_le_mul_of_nonneg_right hCast (ulp_pos x).le

private theorem round_le_log_succ {x : ℚ} (hx : 0 < x) :
    round x ≤ (2 : ℚ) ^ (Int.log 2 x + 1) := by
  have hExp : Int.log 2 x + ((24 : ℕ) : ℤ) - 23 = Int.log 2 x + 1 := by
    push_cast
    ring
  have hScaled : x / ulp x ≤ (((2 : ℤ) ^ 24 : ℤ) : ℚ) := by
    rw [div_le_iff₀ (ulp_pos x), ulp, natPow_mul_zpow, hExp]
    exact (log_bounds hx).2.le
  have hRound := roundEven_mono hScaled
  rw [roundEven_intCast] at hRound
  have hCast : (roundEven (x / ulp x) : ℚ) ≤ (((2 : ℤ) ^ 24 : ℤ) : ℚ) :=
    Int.cast_le.mpr hRound
  calc round x ≤ (((2 : ℤ) ^ 24 : ℤ) : ℚ) * ulp x :=
        mul_le_mul_of_nonneg_right hCast (ulp_pos x).le
    _ = (2 : ℚ) ^ (Int.log 2 x + 1) := by rw [ulp, natPow_mul_zpow, hExp]

theorem round_mono {x y : ℚ} (hx : 0 < x) (h : x ≤ y) : round x ≤ round y := by
  rcases (Int.log_mono_right (b := 2) hx h).lt_or_eq with hLess | hEq
  · calc round x ≤ (2 : ℚ) ^ (Int.log 2 x + 1) := round_le_log_succ hx
      _ ≤ (2 : ℚ) ^ Int.log 2 y := zpow_le_zpow_right₀ (by norm_num) (by omega)
      _ ≤ round y := log_le_round (lt_of_lt_of_le hx h)
  · have hUlp : ulp x = ulp y := by rw [ulp, ulp, hEq]
    have hScaled : x / ulp y ≤ y / ulp y := by
      rw [div_le_div_iff_of_pos_right (ulp_pos y)]
      exact h
    have hCast : (roundEven (x / ulp y) : ℚ) ≤ roundEven (y / ulp y) :=
      Int.cast_le.mpr (roundEven_mono hScaled)
    rw [round, round, hUlp]
    exact mul_le_mul_of_nonneg_right hCast (ulp_pos y).le

theorem round_pos {x : ℚ} (hx : 0 < x) : 0 < round x :=
  lt_of_lt_of_le (by positivity) (log_le_round hx)

/-! ## Quotients rounded up -/

/-- `ceil(a / (float) b)` for integers `a` and `b`. -/
def ceilDiv (a b : ℕ) : ℕ :=
  ⌈round (round a / round b)⌉₊

theorem ceilDiv_pos {a b : ℕ} (ha : 0 < a) (hb : 0 < b) : 0 < ceilDiv a b := by
  have hA : 0 < round (a : ℚ) := round_pos (by exact_mod_cast ha)
  have hB : 0 < round (b : ℚ) := round_pos (by exact_mod_cast hb)
  exact Nat.ceil_pos.mpr (round_pos (div_pos hA hB))

theorem ceilDiv_anti {a b b' : ℕ} (ha : 0 < a) (hb : 0 < b) (h : b ≤ b') :
    ceilDiv a b' ≤ ceilDiv a b := by
  have hA : 0 < round (a : ℚ) := round_pos (by exact_mod_cast ha)
  have hB : 0 < round (b : ℚ) := round_pos (by exact_mod_cast hb)
  have hLe : round (b : ℚ) ≤ round (b' : ℚ) :=
    round_mono (by exact_mod_cast hb) (by exact_mod_cast h)
  have hB' : 0 < round (b' : ℚ) := lt_of_lt_of_le hB hLe
  apply Nat.ceil_mono
  apply round_mono (div_pos hA hB')
  exact div_le_div_of_nonneg_left hA.le hB hLe

private theorem round_natCast_le {n : ℕ} (hn : n ≤ 2 ^ 24) : round (n : ℚ) = n := by
  rcases hn.lt_or_eq with hLess | rfl
  · exact round_natCast hLess
  · have hPower := round_two_zpow 24
    rw [show (2 : ℚ) ^ (24 : ℤ) = ((2 ^ 24 : ℕ) : ℚ) by norm_num] at hPower
    exact hPower

/-- Up to `2 ^ 24` the rounded quotient is not too large. -/
theorem ceilDiv_le {a b q : ℕ} (ha : 0 < a) (hb : 0 < b) (hSize : a ≤ 2 ^ 24)
    (h : a ≤ q * b) : ceilDiv a b ≤ q := by
  have hA : 0 < round (a : ℚ) := round_pos (by exact_mod_cast ha)
  have hq : 0 < q := by
    rcases Nat.eq_zero_or_pos q with rfl | hPos
    · omega
    · exact hPos
  have hB : (min b (2 ^ 24) : ℕ) ≤ round (b : ℚ) := by
    rw [← round_natCast_le (Nat.min_le_right b (2 ^ 24))]
    apply round_mono
    · exact_mod_cast lt_min hb (by norm_num)
    · exact_mod_cast Nat.min_le_left b (2 ^ 24)
  have hBPos : (0 : ℚ) < (min b (2 ^ 24) : ℕ) := by
    exact_mod_cast lt_min hb (by norm_num)
  have hQuotient : round (a : ℚ) / round (b : ℚ) ≤ (min q (2 ^ 24) : ℕ) := by
    rw [div_le_iff₀ (lt_of_lt_of_le hBPos hB), round_natCast_le hSize]
    have hNat : a ≤ min q (2 ^ 24) * min b (2 ^ 24) := by
      rcases le_total b (2 ^ 24) with hSmall | hLarge
      · rcases le_total q (2 ^ 24) with hFew | hMany
        · rwa [min_eq_left hSmall, min_eq_left hFew]
        · rw [min_eq_right hMany]
          exact hSize.trans (Nat.le_mul_of_pos_right _ (lt_min hb (by norm_num)))
      · rw [min_eq_right hLarge]
        exact hSize.trans (Nat.le_mul_of_pos_left _ (lt_min hq (by norm_num)))
    calc (a : ℚ) ≤ ((min q (2 ^ 24) * min b (2 ^ 24) : ℕ) : ℚ) := by exact_mod_cast hNat
      _ = (min q (2 ^ 24) : ℕ) * (min b (2 ^ 24) : ℕ) := by push_cast; ring
      _ ≤ (min q (2 ^ 24) : ℕ) * round (b : ℚ) :=
          mul_le_mul_of_nonneg_left hB (by positivity)
  have hRound := round_mono (div_pos hA (lt_of_lt_of_le hBPos hB)) hQuotient
  rw [round_natCast_le (Nat.min_le_right q (2 ^ 24))] at hRound
  exact (Nat.ceil_le.mpr hRound).trans (Nat.min_le_left q (2 ^ 24))

/-- Up to `2 ^ 24` the rounded quotient is not too small. -/
theorem le_ceilDiv_mul {a b : ℕ} (ha : 0 < a) (hb : 0 < b) (hSize : a ≤ 2 ^ 24) :
    a ≤ ceilDiv a b * b := by
  rcases lt_or_ge (2 ^ 24) b with hLarge | hSmall
  · have hOne := ceilDiv_pos ha hb
    calc a ≤ b := by omega
      _ ≤ ceilDiv a b * b := Nat.le_mul_of_pos_left b hOne
  by_contra hMore
  set q := ceilDiv a b with hq
  have hbQ : (0 : ℚ) < b := by exact_mod_cast hb
  have hx : (0 : ℚ) < a / b := div_pos (by exact_mod_cast ha) hbQ
  have hCeil : round ((a : ℚ) / b) ≤ q := by
    rw [hq, ceilDiv, round_natCast_le hSize, round_natCast_le hSmall]
    exact Nat.le_ceil _
  have hGap : (q : ℚ) + 1 / b ≤ a / b := by
    rw [le_div_iff₀ hbQ, add_mul, one_div, inv_mul_cancel₀ hbQ.ne']
    have : q * b + 1 ≤ a := by omega
    exact_mod_cast this
  obtain ⟨hLow, -⟩ := log_bounds hx
  have hError : (a : ℚ) / b - round ((a : ℚ) / b) ≤ 1 / 2 * ulp ((a : ℚ) / b) := by
    have hScaled := roundEven_sub_le ((a : ℚ) / b / ulp ((a : ℚ) / b))
    have hMul := mul_le_mul_of_nonneg_right hScaled (ulp_pos ((a : ℚ) / b)).le
    rwa [sub_mul, div_mul_cancel₀ _ (ulp_pos _).ne'] at hMul
  have hHalf : 1 / 2 * ulp ((a : ℚ) / b) = (2 : ℚ) ^ Int.log 2 ((a : ℚ) / b) / 2 ^ 24 := by
    rw [ulp, zpow_sub₀ (by norm_num)]
    norm_num
    ring
  have hBound : (a : ℚ) / b / 2 ^ 24 ≤ 1 / b := by
    rw [div_div, div_le_div_iff₀ (by positivity) hbQ]
    have : (a : ℚ) ≤ 2 ^ 24 := by exact_mod_cast hSize
    nlinarith
  rcases hLow.lt_or_eq with hStrict | hPower
  · have : (2 : ℚ) ^ Int.log 2 ((a : ℚ) / b) / 2 ^ 24 < (a : ℚ) / b / 2 ^ 24 :=
      div_lt_div_of_pos_right hStrict (by norm_num)
    linarith
  · have hExact : round ((a : ℚ) / b) = a / b := by
      rw [← hPower]
      exact round_two_zpow _
    have : (0 : ℚ) < 1 / b := by positivity
    linarith

/-- The first number that is not exact in single precision. -/
theorem ceilDiv_two_pow_succ : ceilDiv (2 ^ 24 + 1) 1 = 2 ^ 24 := by
  have hRound : round (((2 ^ 24 + 1 : ℕ) : ℚ)) = ((2 ^ 24 : ℕ) : ℚ) := by
    have hScaled : ((2 ^ 24 + 1 : ℕ) : ℚ) / (2 : ℚ) ^ ((24 : ℤ) - 23) = 8388608 + 1 / 2 := by
      norm_num
    have hFloor : ⌊(8388608 + 1 / 2 : ℚ)⌋ = 8388608 := by
      rw [Int.floor_eq_iff]
      norm_num
    rw [round_of_log (e := 24) (by norm_num) (by norm_num), hScaled, roundEven, hFloor]
    norm_num
  rw [ceilDiv, hRound, Nat.cast_one, show (1 : ℚ) = ((1 : ℕ) : ℚ) by norm_num,
    round_natCast (by norm_num), Nat.cast_one, div_one, round_natCast_le le_rfl, Nat.ceil_natCast]

end Binary32
