import Mathlib.Data.Int.Log
import Mathlib.Data.Rat.Floor
import Mathlib.Tactic.FieldSimp
import Mathlib.Tactic.GCongr
import Mathlib.Tactic.Linarith
import Mathlib.Tactic.Positivity
import Mathlib.Tactic.Ring

namespace Zaciraci.Lib

/-- Rounding half up to `digits` significant decimal digits. -/
def roundSig (digits : ℕ) (q : ℚ) : ℚ :=
  let ulp : ℚ := 10 ^ (Int.log 10 q + 1 - digits)
  ⌊q / ulp + 1 / 2⌋ * ulp

def quotientDigits : ℕ := 100

def decimalDiv (a b : ℕ) : ℚ := roundSig quotientDigits (a / b)

theorem exists_ulp {digits m : ℕ} {q : ℚ} (hq : 0 < q) (hm : q < 10 ^ m) (h : m ≤ digits) :
    ∃ j : ℕ, digits ≤ m + j ∧ roundSig digits q = (⌊q * 10 ^ j + 1 / 2⌋ : ℚ) / 10 ^ j := by
  have hlog : Int.log 10 q < m := by
    rw [← Int.lt_zpow_iff_log_lt (by norm_num) hq]
    exact_mod_cast hm
  obtain ⟨j, hj⟩ := Int.eq_ofNat_of_zero_le (show 0 ≤ digits - Int.log 10 q - 1 by omega)
  have he : Int.log 10 q + 1 - digits = -(j : ℤ) := by omega
  refine ⟨j, by omega, ?_⟩
  simp only [roundSig, he, zpow_neg, zpow_natCast, div_inv_eq_mul]
  exact (div_eq_mul_inv _ _).symm

theorem roundSig_zero (digits : ℕ) : roundSig digits 0 = 0 := by
  have h : ⌊(1 / 2 : ℚ)⌋ = 0 := by norm_num
  simp only [roundSig, zero_div, zero_add, h, Int.cast_zero, zero_mul]

/-- Rounding a quotient to enough digits moves it across no whole number. -/
theorem floor_roundSig {digits m n a b : ℕ} (hb : 0 < b) (hbn : b ≤ 10 ^ n) (ham : a < 10 ^ m * b)
    (h : m + n ≤ digits) : ⌊roundSig digits (a / b)⌋ = (a / b : ℕ) := by
  rcases Nat.eq_zero_or_pos a with rfl | ha
  · simp [roundSig_zero]
  have hb' : (0 : ℚ) < b := by exact_mod_cast hb
  have hm : (a / b : ℚ) < 10 ^ m := by
    rw [div_lt_iff₀ hb']
    exact_mod_cast ham
  have hmd : m ≤ digits := by omega
  obtain ⟨j, hj, hround⟩ := exists_ulp (div_pos (by exact_mod_cast ha) hb') hm hmd
  have hT : (0 : ℚ) < 10 ^ j := by positivity
  have hbT : (b : ℚ) ≤ 10 ^ j := by
    calc (b : ℚ) ≤ 10 ^ n := by exact_mod_cast hbn
      _ ≤ 10 ^ j := pow_le_pow_right₀ (by norm_num) (by omega)
  have hlow : (a / b : ℕ) * b ≤ a := Nat.div_mul_le_self a b
  have hhigh : a + 1 ≤ (a / b + 1) * b := by
    rw [Nat.mul_comm]
    exact Nat.lt_mul_div_succ a hb
  generalize a / b = d at hlow hhigh ⊢
  have hlow' : (d : ℚ) ≤ a / b := by
    rw [le_div_iff₀ hb']
    exact_mod_cast hlow
  have hhigh' : (a / b : ℚ) + 1 / b ≤ d + 1 := by
    rw [← add_div, div_le_iff₀ hb']
    exact_mod_cast hhigh
  have hone : (1 : ℚ) ≤ 1 / b * 10 ^ j := by
    rw [div_mul_eq_mul_div, one_mul, le_div_iff₀ hb', one_mul]
    exact hbT
  rw [hround, Int.floor_eq_iff]
  constructor
  · rw [le_div_iff₀ hT]
    have hle : ((d * 10 ^ j : ℤ) : ℚ) ≤ a / b * 10 ^ j + 1 / 2 := by
      push_cast
      nlinarith
    exact_mod_cast Int.le_floor.mpr hle
  · rw [div_lt_iff₀ hT]
    have hlt : (a / b * 10 ^ j + 1 / 2 : ℚ) < ((d + 1) * 10 ^ j : ℤ) := by
      push_cast
      nlinarith
    exact_mod_cast Int.floor_lt.mpr hlt

theorem floor_decimalDiv {m n a b : ℕ} (hb : 0 < b) (hbn : b ≤ 10 ^ n) (ham : a < 10 ^ m * b)
    (h : m + n ≤ 100) : ⌊decimalDiv a b⌋ = (a / b : ℕ) := floor_roundSig hb hbn ham h

section Within

variable {K : Type} [Field K] [LinearOrder K] [IsStrictOrderedRing K] {a b c d r s : K}

def Within (r a b : K) : Prop := a ≤ r * b ∧ b ≤ r * a

namespace Within

theorem refl (ha : 0 ≤ a) (hr : 1 ≤ r) : Within r a a :=
  ⟨le_mul_of_one_le_left ha hr, le_mul_of_one_le_left ha hr⟩

theorem trans (h : Within r a b) (h' : Within s b c) (hr : 0 ≤ r) (hs : 0 ≤ s) :
    Within (r * s) a c := by
  constructor
  · calc a ≤ r * b := h.1
      _ ≤ r * (s * c) := by gcongr; exact h'.1
      _ = r * s * c := (mul_assoc _ _ _).symm
  · calc c ≤ s * b := h'.2
      _ ≤ s * (r * a) := by gcongr; exact h.2
      _ = r * s * a := by ring

theorem mono (h : Within r a b) (ha : 0 ≤ a) (hb : 0 ≤ b) (hrs : r ≤ s) : Within s a b :=
  ⟨h.1.trans (by gcongr), h.2.trans (by gcongr)⟩

theorem mul (h : Within r a b) (h' : Within s c d) (hr : 0 ≤ r) (ha : 0 ≤ a) (hb : 0 ≤ b)
    (hc : 0 ≤ c) (hd : 0 ≤ d) : Within (r * s) (a * c) (b * d) := by
  constructor
  · calc a * c ≤ r * b * (s * d) := mul_le_mul h.1 h'.1 hc (by positivity)
      _ = r * s * (b * d) := by ring
  · calc b * d ≤ r * a * (s * c) := mul_le_mul h.2 h'.2 hd (by positivity)
      _ = r * s * (a * c) := by ring

end Within

end Within

theorem abs_roundSig_sub_le (digits : ℕ) {q : ℚ} (hq : 0 < q) :
    |roundSig digits q - q| ≤ 10 ^ (1 - digits : ℤ) / 2 * q := by
  have hulp : (0 : ℚ) < 10 ^ (Int.log 10 q + 1 - digits) := zpow_pos (by norm_num) _
  have hle : (10 : ℚ) ^ (Int.log 10 q + 1 - digits) ≤ 10 ^ (1 - digits : ℤ) * q := by
    rw [add_sub_assoc, add_comm, zpow_add₀ (by norm_num)]
    refine mul_le_mul_of_nonneg_left ?_ (zpow_nonneg (by norm_num) _)
    exact_mod_cast Int.zpow_log_le_self (b := 10) (by norm_num) hq
  simp only [roundSig]
  generalize (10 : ℚ) ^ (Int.log 10 q + 1 - digits) = ulp at hulp hle ⊢
  have hround : |(⌊q / ulp + 1 / 2⌋ : ℚ) - q / ulp| ≤ 1 / 2 := by
    rw [abs_sub_comm, ← round_eq]
    exact abs_sub_round (q / ulp)
  calc |⌊q / ulp + 1 / 2⌋ * ulp - q|
      = |(⌊q / ulp + 1 / 2⌋ - q / ulp : ℚ) * ulp| := by
        rw [sub_mul, div_mul_cancel₀ _ hulp.ne']
    _ = |(⌊q / ulp + 1 / 2⌋ - q / ulp : ℚ)| * ulp := by rw [abs_mul, abs_of_pos hulp]
    _ ≤ 1 / 2 * (10 ^ (1 - digits : ℤ) * q) := by gcongr
    _ = 10 ^ (1 - digits : ℤ) / 2 * q := by ring

theorem within_roundSig {digits : ℕ} (hdigits : 0 < digits) {q : ℚ} (hq : 0 < q) :
    Within (1 + 10 ^ (1 - digits : ℤ)) (roundSig digits q) q := by
  have hone : (10 : ℚ) ^ (1 - digits : ℤ) ≤ 1 := zpow_le_one_of_nonpos₀ (by norm_num) (by omega)
  have hpos : (0 : ℚ) < 10 ^ (1 - digits : ℤ) := zpow_pos (by norm_num) _
  obtain ⟨hlow, hhigh⟩ := abs_le.1 (abs_roundSig_sub_le digits hq)
  generalize (10 : ℚ) ^ (1 - digits : ℤ) = ε at *
  constructor
  · nlinarith
  · nlinarith [mul_pos hpos hq]

end Zaciraci.Lib
