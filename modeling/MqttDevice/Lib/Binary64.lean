import Mathlib.Tactic
import Mathlib.Data.Int.Log

/-!
# Rounding to binary64

A double is an exact rational `m * 2 ^ e` with a 53-bit `m` and `e` between
-1074 and 971, or an infinity. There is no NaN here, and zero has no sign.

* `ofRat`: the nearest double, ties to even, infinite from `2 ^ 1024` on;
* `ofRat_of_representable`: a representable rational is its own rounding;
* `ofRat_intCast`: so every integer below `2 ^ 53` in magnitude is exact.
-/

namespace MqttDevice.Binary64

/-- The finite values of the format. -/
def Representable (q : ℚ) : Prop :=
  ∃ m e : ℤ, |m| < 2 ^ 53 ∧ -1074 ≤ e ∧ e ≤ 971 ∧ q = m * 2 ^ e

/-- A double that is a number; there is one zero. -/
inductive Double
  | finite (value : ℚ) (representable : Representable value)
  | inf (neg : Bool)

theorem two_zpow_pos (e : ℤ) : (0 : ℚ) < 2 ^ e := zpow_pos (by norm_num) e

theorem two_pow_mul_zpow {n : ℕ} {e d : ℤ} (h : n + e = d) : (2 : ℚ) ^ n * 2 ^ e = 2 ^ d := by
  rw [← h, zpow_add₀ (by norm_num), zpow_natCast]

theorem representable_neg {q : ℚ} (h : Representable q) : Representable (-q) := by
  obtain ⟨m, e, hm, hlo, hhi, rfl⟩ := h
  exact ⟨-m, e, by rwa [abs_neg], hlo, hhi, by push_cast; ring⟩

/-! ## Magnitudes -/

/-- The natural number nearest to `q`; of two, the even one. -/
def roundHalfEven (q : ℚ) : ℕ :=
  if q - ⌊q⌋₊ < 1 / 2 then ⌊q⌋₊
  else if 1 / 2 < q - ⌊q⌋₊ then ⌊q⌋₊ + 1
  else ⌊q⌋₊ + ⌊q⌋₊ % 2

@[simp] theorem roundHalfEven_natCast (n : ℕ) : roundHalfEven n = n := by
  simp [roundHalfEven]

theorem roundHalfEven_bounds (q : ℚ) : ⌊q⌋₊ ≤ roundHalfEven q ∧ roundHalfEven q ≤ ⌊q⌋₊ + 1 := by
  unfold roundHalfEven
  split
  · omega
  · split <;> omega

/-- The exponent of the last bit of a double near `q`. -/
def ulpExp (q : ℚ) : ℤ := max (Int.log 2 q - 52) (-1074)

/-- The mantissa nearest to `q` at that exponent. -/
def mantissa (q : ℚ) : ℕ := roundHalfEven (q / 2 ^ ulpExp q)

/-- The rounding of a magnitude, before the test for overflow. -/
def roundMag (q : ℚ) : ℚ := mantissa q * 2 ^ ulpExp q

theorem scaled_lt (q : ℚ) : q / 2 ^ ulpExp q < 2 ^ 53 := by
  have hlt : q < (2 : ℚ) ^ (Int.log 2 q + 1) := Int.lt_zpow_succ_log_self (by norm_num) q
  have hexp : Int.log 2 q + 1 ≤ 53 + ulpExp q := by
    have := le_max_left (Int.log 2 q - 52) (-1074)
    simp only [ulpExp]
    omega
  rw [div_lt_iff₀ (two_zpow_pos _)]
  calc q < 2 ^ (Int.log 2 q + 1) := hlt
    _ ≤ 2 ^ (53 + ulpExp q) := zpow_le_zpow_right₀ (by norm_num) hexp
    _ = 2 ^ 53 * 2 ^ ulpExp q := (two_pow_mul_zpow rfl).symm

theorem mantissa_le (q : ℚ) : mantissa q ≤ 2 ^ 53 := by
  have hfloor : ⌊q / 2 ^ ulpExp q⌋₊ < 2 ^ 53 := by
    apply (Nat.floor_lt' (by norm_num)).mpr
    push_cast
    exact scaled_lt q
  have := (roundHalfEven_bounds (q / 2 ^ ulpExp q)).2
  unfold mantissa
  omega

/-- Above the subnormals all 53 bits are in use. -/
theorem le_mantissa {q : ℚ} (hq : 0 < q) (he : -1074 < ulpExp q) : 2 ^ 52 ≤ mantissa q := by
  have hexp : 52 + ulpExp q = Int.log 2 q := by
    have := max_choice (Int.log 2 q - 52) (-1074)
    simp only [ulpExp] at he ⊢
    omega
  have hle : (2 : ℚ) ^ Int.log 2 q ≤ q := Int.zpow_log_le_self (by norm_num) hq
  have hscaled : (2 : ℚ) ^ 52 ≤ q / 2 ^ ulpExp q := by
    rw [le_div_iff₀ (two_zpow_pos _)]
    calc (2 : ℚ) ^ 52 * 2 ^ ulpExp q = 2 ^ (52 + ulpExp q) := two_pow_mul_zpow rfl
      _ = 2 ^ Int.log 2 q := by rw [hexp]
      _ ≤ q := hle
  have hfloor : 2 ^ 52 ≤ ⌊q / 2 ^ ulpExp q⌋₊ := by
    apply Nat.le_floor
    push_cast
    exact hscaled
  exact le_trans hfloor (roundHalfEven_bounds _).1

/-- From here on a magnitude is infinite. -/
def overflow : ℚ := 2 ^ (1024 : ℤ)

theorem ulpExp_le {q : ℚ} (hq : 0 < q) (h : roundMag q < overflow) : ulpExp q ≤ 971 := by
  by_contra hgt
  have hm : (2 : ℚ) ^ 52 ≤ mantissa q := by exact_mod_cast le_mantissa hq (by omega)
  have hpow : (2 : ℚ) ^ (972 : ℤ) ≤ 2 ^ ulpExp q := zpow_le_zpow_right₀ (by norm_num) (by omega)
  have hprod : (2 : ℚ) ^ 52 * 2 ^ (972 : ℤ) ≤ roundMag q :=
    mul_le_mul hm hpow (le_of_lt (two_zpow_pos _)) (Nat.cast_nonneg _)
  have heq : (2 : ℚ) ^ 52 * 2 ^ (972 : ℤ) = overflow := two_pow_mul_zpow (by norm_num)
  rw [heq] at hprod
  exact absurd h (not_lt.mpr hprod)

/-- A carry out of the mantissa goes to the exponent. -/
theorem representable_roundMag {q : ℚ} (hq : 0 < q) (h : roundMag q < overflow) :
    Representable (roundMag q) := by
  have hlo : -1074 ≤ ulpExp q := le_max_right _ _
  have hhi := ulpExp_le hq h
  rcases Nat.lt_or_eq_of_le (mantissa_le q) with hlt | heq
  · refine ⟨mantissa q, ulpExp q, ?_, hlo, hhi, by simp [roundMag]⟩
    rw [abs_of_nonneg (by omega)]
    exact_mod_cast hlt
  · have hval : roundMag q = ((2 ^ 52 : ℤ) : ℚ) * 2 ^ (ulpExp q + 1) := by
      rw [roundMag, heq, zpow_add_one₀ (by norm_num)]
      push_cast
      ring
    refine ⟨2 ^ 52, ulpExp q + 1, by norm_num, by omega, ?_, hval⟩
    by_contra hgt
    have hexp : ulpExp q = 971 := by omega
    rw [roundMag, heq, hexp] at h
    have hover : ((2 ^ 53 : ℕ) : ℚ) * 2 ^ (971 : ℤ) = overflow := by
      rw [Nat.cast_pow, Nat.cast_ofNat]
      exact two_pow_mul_zpow (by norm_num)
    rw [hover] at h
    exact absurd h (lt_irrefl _)

theorem representable_zero : Representable 0 :=
  ⟨0, 0, by norm_num, by norm_num, by norm_num, by simp⟩

/-! ## Doubles -/

/-- The nearest double. -/
def ofRat (q : ℚ) : Double :=
  if hq : q = 0 then .finite 0 representable_zero
  else if h : roundMag |q| < overflow then
    have hmag := representable_roundMag (abs_pos.mpr hq) h
    if q < 0 then .finite (-roundMag |q|) (representable_neg hmag) else .finite (roundMag |q|) hmag
  else .inf (q < 0)

theorem roundMag_nonneg (q : ℚ) : 0 ≤ roundMag q :=
  mul_nonneg (Nat.cast_nonneg _) (le_of_lt (two_zpow_pos _))

/-- Rounding keeps the sign. -/
theorem ofRat_nonneg {q v : ℚ} {h : Representable v} (hq : 0 ≤ q)
    (he : ofRat q = .finite v h) : 0 ≤ v := by
  unfold ofRat at he
  split at he
  · cases he
    exact le_refl 0
  · split at he
    · simp only [not_lt.mpr hq, if_false] at he
      cases he
      exact roundMag_nonneg _
    · cases he

/-- The last bit of a representable number is no smaller than the one that
`ulpExp` allows for its size. -/
theorem roundMag_of_representable {q : ℚ} (hq : 0 < q) (h : Representable q) :
    roundMag q = q := by
  obtain ⟨m, e, hm, hlo, -, rfl⟩ := h
  have hm0 : 0 < m := by
    have := (mul_pos_iff_of_pos_right (two_zpow_pos e)).mp hq
    exact_mod_cast this
  have hlog : Int.log 2 ((m : ℚ) * 2 ^ e) ≤ e + 52 := by
    have hlt : (m : ℚ) * 2 ^ e < 2 ^ (e + 53) := by
      rw [zpow_add₀ (by norm_num), mul_comm]
      apply mul_lt_mul_of_pos_left _ (two_zpow_pos e)
      have hmq : (m : ℚ) < ((2 ^ 53 : ℤ) : ℚ) := by
        exact_mod_cast (abs_lt.mp hm).2
      norm_num at hmq ⊢
      exact hmq
    have hlog := (Int.lt_zpow_iff_log_lt (by norm_num) hq).mp hlt
    exact Int.lt_add_one_iff.mp (by rwa [add_assoc])
  have hexp : ulpExp ((m : ℚ) * 2 ^ e) ≤ e := by
    simp only [ulpExp]
    omega
  obtain ⟨k, hk⟩ := Int.le.dest hexp
  obtain ⟨n, rfl⟩ := Int.eq_ofNat_of_zero_le (le_of_lt hm0)
  generalize hu : ulpExp (((n : ℤ) : ℚ) * 2 ^ e) = u at *
  have hscaled : ((n : ℤ) : ℚ) * 2 ^ e / 2 ^ u = ((n * 2 ^ k : ℕ) : ℚ) := by
    rw [div_eq_iff (ne_of_gt (two_zpow_pos u)), ← hk, zpow_add₀ (by norm_num), zpow_natCast]
    push_cast
    ring
  rw [roundMag, mantissa, hu, hscaled, roundHalfEven_natCast, ← hscaled]
  exact div_mul_cancel₀ _ (ne_of_gt (two_zpow_pos u))

theorem representable_lt {q : ℚ} (h : Representable q) : |q| < overflow := by
  obtain ⟨m, e, hm, -, hhi, rfl⟩ := h
  have hmq : |(m : ℚ)| < 2 ^ 53 := by exact_mod_cast hm
  rw [abs_mul, abs_of_pos (two_zpow_pos e)]
  calc |(m : ℚ)| * 2 ^ e < 2 ^ 53 * 2 ^ e := mul_lt_mul_of_pos_right hmq (two_zpow_pos e)
    _ ≤ 2 ^ 53 * 2 ^ (971 : ℤ) :=
      mul_le_mul_of_nonneg_left (zpow_le_zpow_right₀ (by norm_num) hhi) (by positivity)
    _ = overflow := two_pow_mul_zpow (by norm_num)

/-- The smallest magnitude but zero. -/
theorem le_of_representable {q : ℚ} (hq : q ≠ 0) (h : Representable q) :
    (2 : ℚ) ^ (-1074 : ℤ) ≤ |q| := by
  obtain ⟨m, e, -, hlo, -, rfl⟩ := h
  have hm : (1 : ℚ) ≤ |(m : ℚ)| := by
    have hm0 : m ≠ 0 := by
      rintro rfl
      simp at hq
    exact_mod_cast Int.one_le_abs hm0
  rw [abs_mul, abs_of_pos (two_zpow_pos e)]
  calc (2 : ℚ) ^ (-1074 : ℤ) ≤ 2 ^ e := zpow_le_zpow_right₀ (by norm_num) hlo
    _ ≤ |(m : ℚ)| * 2 ^ e := le_mul_of_one_le_left (le_of_lt (two_zpow_pos e)) hm

theorem representable_abs {q : ℚ} (h : Representable q) : Representable |q| := by
  rcases abs_choice q with e | e <;> rw [e]
  · exact h
  · exact representable_neg h

/-- **Exactness.** -/
theorem ofRat_of_representable {q : ℚ} (h : Representable q) : ofRat q = .finite q h := by
  unfold ofRat
  split
  · rename_i hq
    subst hq
    rfl
  · rename_i hq
    have hmag := roundMag_of_representable (abs_pos.mpr hq) (representable_abs h)
    have hlt := representable_lt h
    simp only [hmag, hlt, dif_pos]
    split
    · rename_i hneg
      simp [abs_of_neg hneg]
    · rename_i hnn
      simp [abs_of_nonneg (not_lt.mp hnn)]

theorem representable_intCast {n : ℤ} (h : |n| < 2 ^ 53) : Representable n :=
  ⟨n, 0, h, by norm_num, by norm_num, by simp⟩

/-- Integers of 53 bits are exact. -/
theorem ofRat_intCast {n : ℤ} (h : |n| < 2 ^ 53) :
    ofRat n = .finite n (representable_intCast h) :=
  ofRat_of_representable _

end MqttDevice.Binary64
