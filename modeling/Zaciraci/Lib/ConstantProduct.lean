import Zaciraci.Lib.Decimal

namespace Zaciraci.Lib

variable {K : Type} [Field K] [LinearOrder K] [IsStrictOrderedRing K] {x y a b r : K}

/-- What reserves of `x` and `y` give for `a`, if their product is to stay the same. -/
def constantProduct (x y a : K) : K := y * a / (x + a)

theorem constantProduct_pos (hx : 0 < x) (hy : 0 < y) (ha : 0 < a) :
    0 < constantProduct x y a := by
  unfold constantProduct
  positivity

theorem constantProduct_nonneg (hx : 0 < x) (hy : 0 < y) (ha : 0 ≤ a) :
    0 ≤ constantProduct x y a := by
  unfold constantProduct
  positivity

theorem constantProduct_mono (hx : 0 < x) (hy : 0 < y) (ha : 0 ≤ a) (h : a ≤ b) :
    constantProduct x y a ≤ constantProduct x y b := by
  have hcross : a * (x + b) ≤ b * (x + a) := by linarith [mul_le_mul_of_nonneg_right h hx.le]
  rw [constantProduct, constantProduct, div_le_div_iff₀ (by positivity) (by linarith)]
  calc y * a * (x + b) = y * (a * (x + b)) := mul_assoc _ _ _
    _ ≤ y * (b * (x + a)) := by gcongr
    _ = y * b * (x + a) := (mul_assoc _ _ _).symm

theorem mul_constantProduct_le (hx : 0 < x) (hy : 0 < y) (ha : 0 ≤ a) (hr : 0 ≤ r) (h : r ≤ 1) :
    r * constantProduct x y a ≤ constantProduct x y (r * a) := by
  have hle : r * a ≤ a := mul_le_of_le_one_left ha h
  rw [constantProduct, constantProduct, ← mul_div_assoc, mul_left_comm]
  gcongr

theorem constantProduct_mul_le (hx : 0 < x) (hy : 0 < y) (ha : 0 ≤ a) (h : 1 ≤ r) :
    constantProduct x y (r * a) ≤ r * constantProduct x y a := by
  have hle : a ≤ r * a := le_mul_of_one_le_left ha h
  have hr : 0 ≤ r := zero_le_one.trans h
  rw [constantProduct, constantProduct, ← mul_div_assoc, mul_left_comm]
  gcongr

theorem impact_mul_constantProduct (hx : 0 < x) (ha : 0 ≤ a) (y : K) :
    (x + a) / x * constantProduct x y a = y / x * a := by
  have hsum : x + a ≠ 0 := by positivity
  rw [constantProduct]
  field_simp

namespace Within

theorem impact (h : Within r a b) (hx : 0 < x) (hr : 1 ≤ r) :
    Within r ((x + a) / x) ((x + b) / x) := by
  have hxr : x ≤ r * x := le_mul_of_one_le_left hx.le hr
  constructor
  · rw [← mul_div_assoc, mul_add]
    gcongr
    exact h.1
  · rw [← mul_div_assoc, mul_add]
    gcongr
    exact h.2

theorem constantProduct (h : Within r a b) (hx : 0 < x) (hy : 0 < y) (ha : 0 ≤ a) (hb : 0 ≤ b)
    (hr : 1 ≤ r) : Within r (constantProduct x y a) (constantProduct x y b) :=
  ⟨(constantProduct_mono hx hy ha h.1).trans (constantProduct_mul_le hx hy hb hr),
    (constantProduct_mono hx hy hb h.2).trans (constantProduct_mul_le hx hy ha hr)⟩

end Within

end Zaciraci.Lib
