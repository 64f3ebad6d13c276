import Mathlib.Algebra.BigOperators.Fin
import Mathlib.Algebra.BigOperators.Field
import Mathlib.LinearAlgebra.Matrix.Symmetric
import Mathlib.Tactic.Ring

namespace Zaciraci.Lib

open Matrix

variable {K : Type} [Field K] {m : ℕ}

/-- What is left of a matrix when the first unknown is eliminated. -/
def schur (A : Matrix (Fin (m + 1)) (Fin (m + 1)) K) : Matrix (Fin m) (Fin m) K :=
  fun i j ↦ A i.succ j.succ - A i.succ 0 * A 0 j.succ / A 0 0

variable {A : Matrix (Fin (m + 1)) (Fin (m + 1)) K}

/-- The first row determines the eliminated unknown, and the others become those of `schur A`. -/
theorem mulVec_cons (h : A 0 0 ≠ 0) (t : K) (y : Fin m → K) :
    A *ᵥ Fin.cons ((t - ∑ j, A 0 (Fin.succ j) * y j) / A 0 0) y =
      Fin.cons t fun i ↦ (schur A *ᵥ y) i + A i.succ 0 * t / A 0 0 := by
  funext i
  rw [mulVec, dotProduct, Fin.sum_univ_succ]
  cases i using Fin.cases with
  | zero => simp [mul_div_cancel₀ _ h]
  | succ i =>
    have hschur : (schur A *ᵥ y) i =
        ∑ j, A i.succ j.succ * y j - A i.succ 0 / A 0 0 * ∑ j, A 0 (Fin.succ j) * y j := by
      rw [mulVec, dotProduct, Finset.mul_sum, ← Finset.sum_sub_distrib]
      refine Finset.sum_congr rfl fun j _ ↦ ?_
      rw [schur]
      ring
    simp only [Fin.cons_zero, Fin.cons_succ, hschur]
    ring

variable [LinearOrder K]

structure PositiveDefinite (A : Matrix (Fin m) (Fin m) K) : Prop where
  symm : A.IsSymm
  pos : ∀ x : Fin m → K, x ≠ 0 → 0 < x ⬝ᵥ A *ᵥ x

/-- Elimination of one unknown after the other, as long as the pivots are positive. -/
def eliminate : {m : ℕ} → Matrix (Fin m) (Fin m) K → Option ((Fin m → K) → Fin m → K)
  | 0, _ => some fun b ↦ b
  | _ + 1, A =>
    if A 0 0 ≤ 0 then none
    else (eliminate (schur A)).map fun solve b ↦
      let y := solve fun i ↦ b i.succ - A i.succ 0 * b 0 / A 0 0
      Fin.cons ((b 0 - ∑ j, A 0 (Fin.succ j) * y j) / A 0 0) y

variable [IsStrictOrderedRing K]

theorem PositiveDefinite.pivot_pos (h : PositiveDefinite A) : 0 < A 0 0 := by
  have hpos := h.pos (Pi.single 0 1) (by simp)
  simpa using hpos

theorem PositiveDefinite.schur (h : PositiveDefinite A) : PositiveDefinite (schur A) := by
  have hsymm (i j : Fin (m + 1)) : A i j = A j i := h.symm.apply j i
  refine ⟨?_, fun y hy ↦ ?_⟩
  · ext i j
    rw [Matrix.transpose_apply, Lib.schur, Lib.schur, hsymm j.succ i.succ, hsymm j.succ 0,
      hsymm 0 i.succ, mul_comm]
  · -- The first unknown is chosen such that it adds nothing to the quadratic form.
    have hpos := h.pos (Fin.cons ((0 - ∑ j, A 0 (Fin.succ j) * y j) / A 0 0) y) fun hzero ↦ hy <| by
      funext i
      exact congrFun hzero i.succ
    rw [mulVec_cons h.pivot_pos.ne', dotProduct, Fin.sum_univ_succ] at hpos
    simpa [dotProduct] using hpos

theorem eliminate_exact {A : Matrix (Fin m) (Fin m) K} (h : PositiveDefinite A) :
    ∃ solve, eliminate A = some solve ∧ ∀ b, A *ᵥ solve b = b := by
  induction m with
  | zero => exact ⟨_, rfl, fun b ↦ Subsingleton.elim _ _⟩
  | succ m ih =>
    obtain ⟨solve, hsolve, hexact⟩ := ih h.schur
    have hpivot := h.pivot_pos
    rw [eliminate, if_neg hpivot.not_ge, hsolve]
    refine ⟨_, rfl, fun b ↦ ?_⟩
    dsimp only
    rw [mulVec_cons hpivot.ne', hexact]
    funext i
    cases i using Fin.cases with
    | zero => rfl
    | succ i => exact sub_add_cancel _ _

end Zaciraci.Lib
