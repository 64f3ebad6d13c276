import Mathlib.Algebra.Order.Ring.Abs
import Mathlib.Tactic.Linarith
import Mathlib.Tactic.LinearCombination
import Mathlib.Tactic.Positivity
import Mathlib.Tactic.Ring

namespace Zaciraci.Lib

variable {K : Type} [CommRing K] [LinearOrder K]

structure NewtonStep (v x y : K) : Prop where
  pos : 0 < x
  eq : 2 * x * y = x * x + v

namespace NewtonStep

variable {v x y ε : K}

theorem excess (h : NewtonStep v x y) : y * y - v = (x - y) ^ 2 := by
  linear_combination h.eq

theorem excess_mul (h : NewtonStep v x y) :
    4 * (x * x) * (y * y - v) = (x * x - v) ^ 2 := by
  have hstep : 2 * x * (x - y) = x * x - v := by linear_combination -h.eq
  rw [h.excess, ← hstep]
  ring

variable [IsStrictOrderedRing K]

theorem pos_next (h : NewtonStep v x y) (hv : 0 < v) : 0 < y := by
  have hx := h.pos
  have hprod : 0 < 2 * x * y := by
    rw [h.eq]
    positivity
  exact pos_of_mul_pos_right hprod (by positivity)

theorem le_sq (h : NewtonStep v x y) : v ≤ y * y := by
  rw [← sub_nonneg, h.excess]
  positivity

theorem sub_sq_lt (h : NewtonStep v x y) (hstep : |x - y| < ε) (hy : ε < y) :
    (y - ε) ^ 2 < v := by
  have hε : 0 < ε := (abs_nonneg _).trans_lt hstep
  have hsq : (x - y) ^ 2 < ε ^ 2 := by
    rw [← sq_abs]
    gcongr
  have hgap : ε * ε < ε * y := mul_lt_mul_of_pos_left hy hε
  have hexcess := h.excess
  linarith [sub_sq y ε, sq ε, sq y]

theorem excess_le_quarter (h : NewtonStep v x y) (hv : 0 < v) (hx : v ≤ x * x) :
    4 * (y * y - v) ≤ x * x - v := by
  have hpos : 0 < x * x := mul_pos h.pos h.pos
  refine le_of_mul_le_mul_left ?_ hpos
  calc x * x * (4 * (y * y - v)) = (x * x - v) * (x * x - v) := by
        linear_combination h.excess_mul
    _ ≤ x * x * (x * x - v) := mul_le_mul_of_nonneg_right (by linarith) (sub_nonneg.2 hx)

theorem excess_le_sq (h : NewtonStep v x y) (hx : v ≤ x * x) :
    4 * v * (y * y - v) ≤ (x * x - v) ^ 2 := by
  have hy : 0 ≤ y * y - v := sub_nonneg.2 h.le_sq
  rw [← h.excess_mul]
  gcongr

end NewtonStep

section Sequence

variable [IsStrictOrderedRing K] {v : K} {x : ℕ → K}

/-- After the first step every iterate lies above the root, and `m` steps divide the excess
by `4 ^ m`. -/
theorem newton_quarter (h : ∀ k, NewtonStep v (x k) (x (k + 1))) (hv : 0 < v) (k m : ℕ) :
    4 ^ m * (x (k + m + 1) * x (k + m + 1) - v) ≤ x (k + 1) * x (k + 1) - v := by
  induction m with
  | zero => rw [pow_zero, one_mul, Nat.add_zero]
  | succ m ih =>
    have hstep := (h (k + m + 1)).excess_le_quarter hv (h (k + m)).le_sq
    calc 4 ^ (m + 1) * (x (k + (m + 1) + 1) * x (k + (m + 1) + 1) - v)
        = 4 ^ m * (4 * (x (k + m + 1 + 1) * x (k + m + 1 + 1) - v)) := by
          rw [pow_succ, mul_assoc, ← Nat.add_assoc]
      _ ≤ 4 ^ m * (x (k + m + 1) * x (k + m + 1) - v) := by gcongr
      _ ≤ x (k + 1) * x (k + 1) - v := ih

/-- Once the excess is at most `v`, each step doubles the number of correct digits. -/
theorem newton_square (h : ∀ k, NewtonStep v (x k) (x (k + 1))) (hv : 0 < v) {k : ℕ}
    (hk : x (k + 1) * x (k + 1) - v ≤ v) (j : ℕ) :
    4 ^ 2 ^ j * (x (k + j + 1) * x (k + j + 1) - v) ≤ 4 * v := by
  induction j with
  | zero => simpa using hk
  | succ j ih =>
    set e := x (k + j + 1) * x (k + j + 1) - v with he
    have hnonneg : 0 ≤ e := sub_nonneg.2 (h (k + j)).le_sq
    have hstep := (h (k + j + 1)).excess_le_sq (h (k + j)).le_sq
    have hpow : (4 : K) ^ 2 ^ (j + 1) = 4 ^ 2 ^ j * 4 ^ 2 ^ j := by rw [pow_succ, mul_two, pow_add]
    refine le_of_mul_le_mul_left ?_ (mul_pos four_pos hv)
    calc 4 * v * (4 ^ 2 ^ (j + 1) * (x (k + (j + 1) + 1) * x (k + (j + 1) + 1) - v))
        = 4 ^ 2 ^ (j + 1) * (4 * v * (x (k + j + 1 + 1) * x (k + j + 1 + 1) - v)) := by
          rw [← Nat.add_assoc]
          ring
      _ ≤ 4 ^ 2 ^ (j + 1) * e ^ 2 := by gcongr
      _ = (4 ^ 2 ^ j * e) * (4 ^ 2 ^ j * e) := by
          rw [hpow]
          ring
      _ ≤ 4 * v * (4 * v) := mul_le_mul ih ih (by positivity) (by positivity)

end Sequence

end Zaciraci.Lib
