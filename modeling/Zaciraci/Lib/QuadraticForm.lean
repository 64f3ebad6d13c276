import Mathlib.Algebra.Order.BigOperators.Group.LocallyFinite
import Mathlib.Algebra.QuadraticDiscriminant
import Mathlib.Data.Matrix.Diagonal
import Mathlib.LinearAlgebra.Matrix.NonsingularInverse
import Mathlib.LinearAlgebra.Matrix.Trace
import Zaciraci.Lib.Elimination

namespace Zaciraci.Lib

open Matrix

variable {K : Type} [Field K] {ι κ : Type} [Fintype ι] [Fintype κ]

def frobeniusSq (A : Matrix ι ι K) : K := ∑ i, ∑ j, A i j ^ 2

theorem sum_symm [LinearOrder ι] [LocallyFiniteOrderTop ι] [LocallyFiniteOrderBot ι]
    {f : ι → ι → K} (hf : ∀ i j, f i j = f j i) :
    ∑ i, (f i i + ∑ j ∈ Finset.Ioi i, 2 * f i j) = ∑ i, ∑ j, f i j := by
  have hoff := Finset.sum_sum_Ioi_add_eq_sum_sum_off_diag f
  have htwice (i : ι) : ∑ j ∈ Finset.Ioi i, 2 * f i j = ∑ j ∈ Finset.Ioi i, (f j i + f i j) := by
    refine Finset.sum_congr rfl fun j _ ↦ ?_
    rw [hf j i, two_mul]
  rw [Finset.sum_add_distrib, Finset.sum_congr rfl fun i _ ↦ htwice i, hoff,
    ← Finset.sum_add_distrib]
  refine Finset.sum_congr rfl fun i _ ↦ ?_
  rw [← Finset.sum_add_sum_compl {i}, Finset.sum_singleton]
  congr 1
  exact Finset.sum_congr rfl fun j _ ↦ hf j i

theorem form_gram (X : Matrix κ ι K) (x : ι → K) :
    x ⬝ᵥ (Xᵀ * X) *ᵥ x = (X *ᵥ x) ⬝ᵥ (X *ᵥ x) := by
  rw [← mulVec_mulVec, dotProduct_mulVec, vecMul_transpose]

section Spectral

variable [DecidableEq ι] {V : Matrix ι ι K}

theorem length_spectral (hV : V * Vᵀ = 1) (x : ι → K) : (Vᵀ *ᵥ x) ⬝ᵥ (Vᵀ *ᵥ x) = x ⬝ᵥ x := by
  rw [← form_gram, transpose_transpose, hV, one_mulVec]

theorem form_spectral (V : Matrix ι ι K) (d x : ι → K) :
    x ⬝ᵥ (V * diagonal d * Vᵀ) *ᵥ x = ∑ i, d i * ((Vᵀ *ᵥ x) i * (Vᵀ *ᵥ x) i) := by
  rw [← mulVec_mulVec, ← mulVec_mulVec, dotProduct_mulVec, ← mulVec_transpose, dotProduct]
  refine Finset.sum_congr rfl fun i _ ↦ ?_
  rw [mulVec_diagonal]
  ring

end Spectral

variable [LinearOrder K]

/-- A symmetric matrix whose quadratic form is at least `ε` times the square of the length. -/
structure FormAtLeast (ε : K) (A : Matrix ι ι K) : Prop where
  symm : A.IsSymm
  le : ∀ x : ι → K, ε * (x ⬝ᵥ x) ≤ x ⬝ᵥ A *ᵥ x

variable {A B : Matrix ι ι K} {ε δ s t : K}

theorem FormAtLeast.mono [IsStrictOrderedRing K] (h : FormAtLeast ε A) (hδ : δ ≤ ε) :
    FormAtLeast δ A := by
  refine ⟨h.symm, fun x ↦ le_trans ?_ (h.le x)⟩
  exact mul_le_mul_of_nonneg_right hδ (Finset.sum_nonneg fun i _ ↦ mul_self_nonneg _)

theorem FormAtLeast.combine [IsStrictOrderedRing K] (hA : FormAtLeast ε A) (hB : FormAtLeast δ B)
    (hs : 0 ≤ s) (ht : 0 ≤ t) : FormAtLeast (s * ε + t * δ) (s • A + t • B) := by
  refine ⟨(hA.symm.smul s).add (hB.symm.smul t), fun x ↦ ?_⟩
  have hform : x ⬝ᵥ (s • A + t • B) *ᵥ x = s * (x ⬝ᵥ A *ᵥ x) + t * (x ⬝ᵥ B *ᵥ x) := by
    rw [add_mulVec, smul_mulVec, smul_mulVec, dotProduct_add, dotProduct_smul, dotProduct_smul,
      smul_eq_mul, smul_eq_mul]
  rw [hform]
  calc (s * ε + t * δ) * (x ⬝ᵥ x) = s * (ε * (x ⬝ᵥ x)) + t * (δ * (x ⬝ᵥ x)) := by ring
    _ ≤ s * (x ⬝ᵥ A *ᵥ x) + t * (x ⬝ᵥ B *ᵥ x) := by
        gcongr
        · exact hA.le x
        · exact hB.le x

theorem formAtLeast_gram [IsStrictOrderedRing K] (X : Matrix κ ι K) :
    FormAtLeast 0 (Xᵀ * X) := by
  refine ⟨by rw [IsSymm, transpose_mul, transpose_transpose], fun x ↦ ?_⟩
  rw [zero_mul, form_gram]
  exact Finset.sum_nonneg fun k _ ↦ mul_self_nonneg _

theorem FormAtLeast.sq_le [IsStrictOrderedRing K] (h : FormAtLeast 0 A) (x y : ι → K) :
    (x ⬝ᵥ A *ᵥ y) ^ 2 ≤ (x ⬝ᵥ A *ᵥ x) * (y ⬝ᵥ A *ᵥ y) := by
  have hcomm : y ⬝ᵥ A *ᵥ x = x ⬝ᵥ A *ᵥ y := by
    rw [dotProduct_mulVec, ← mulVec_transpose, h.symm.eq, dotProduct_comm]
  have hdiscrim := discrim_le_zero (a := x ⬝ᵥ A *ᵥ x) (b := 2 * (x ⬝ᵥ A *ᵥ y))
    (c := y ⬝ᵥ A *ᵥ y) fun t ↦ by
      have hle := h.le (t • x + y)
      rw [zero_mul, mulVec_add, mulVec_smul, add_dotProduct, dotProduct_add, dotProduct_add,
        smul_dotProduct, smul_dotProduct, dotProduct_smul, dotProduct_smul, hcomm] at hle
      simp only [smul_eq_mul] at hle
      linarith
  rw [discrim] at hdiscrim
  linarith

variable [DecidableEq ι]

theorem formAtLeast_one : FormAtLeast 1 (1 : Matrix ι ι K) :=
  ⟨isSymm_one, fun x ↦ by rw [one_mulVec, one_mul]⟩

theorem formAtLeast_spectral [IsStrictOrderedRing K] {V : Matrix ι ι K} {d : ι → K}
    (hV : V * Vᵀ = 1) (hd : ∀ i, ε ≤ d i) : FormAtLeast ε (V * diagonal d * Vᵀ) := by
  refine ⟨?_, fun x ↦ ?_⟩
  · rw [Matrix.IsSymm, transpose_mul, transpose_mul, transpose_transpose, diagonal_transpose,
      Matrix.mul_assoc]
  · rw [form_spectral, ← length_spectral hV, dotProduct, Finset.mul_sum]
    refine Finset.sum_le_sum fun i _ ↦ ?_
    exact mul_le_mul_of_nonneg_right (hd i) (mul_self_nonneg _)

theorem FormAtLeast.le_spectral {V : Matrix ι ι K} {d : ι → K} (hV : V * Vᵀ = 1)
    (h : FormAtLeast ε (V * diagonal d * Vᵀ)) (i : ι) : ε ≤ d i := by
  have hle := h.le (V *ᵥ Pi.single i 1)
  have hcoord : Vᵀ *ᵥ V *ᵥ Pi.single i 1 = Pi.single i 1 := by
    rw [mulVec_mulVec, mul_eq_one_comm.1 hV, one_mulVec]
  rw [form_spectral, ← length_spectral hV, hcoord] at hle
  simpa [Pi.single_apply, dotProduct] using hle

theorem form_spectral_raised [IsStrictOrderedRing K] {V : Matrix ι ι K} (hV : V * Vᵀ = 1)
    (d d' : ι → K) (hle : ∀ i, d i ≤ d' i) (hraised : ∀ i, d' i ≤ d i + ε) (x : ι → K) :
    x ⬝ᵥ (V * diagonal d * Vᵀ) *ᵥ x ≤ x ⬝ᵥ (V * diagonal d' * Vᵀ) *ᵥ x ∧
      x ⬝ᵥ (V * diagonal d' * Vᵀ) *ᵥ x ≤ x ⬝ᵥ (V * diagonal d * Vᵀ) *ᵥ x + ε * (x ⬝ᵥ x) := by
  rw [form_spectral, form_spectral, ← length_spectral hV, dotProduct, Finset.mul_sum,
    ← Finset.sum_add_distrib]
  refine ⟨Finset.sum_le_sum fun i _ ↦ ?_, Finset.sum_le_sum fun i _ ↦ ?_⟩
  · exact mul_le_mul_of_nonneg_right (hle i) (mul_self_nonneg _)
  · rw [← add_mul]
    exact mul_le_mul_of_nonneg_right (hraised i) (mul_self_nonneg _)

omit [LinearOrder K] in
theorem sum_extend_mul {f : κ → ι} (hf : Function.Injective f) (x : κ → K) (g : ι → K) :
    ∑ i, Function.extend f x 0 i * g i = ∑ k, x k * g (f k) := by
  rw [← Finset.sum_subset (Finset.subset_univ (Finset.univ.image f)),
    Finset.sum_image fun _ _ _ _ heq ↦ hf heq]
  · exact Finset.sum_congr rfl fun k _ ↦ by rw [hf.extend_apply]
  · intro i _ hi
    rw [Function.extend_apply' _ _ _ fun ⟨k, hk⟩ ↦ hi (by simp [← hk]), Pi.zero_apply, zero_mul]

omit [LinearOrder K] in
theorem form_extend {f : κ → ι} (hf : Function.Injective f) (A : Matrix ι ι K) (x : κ → K) :
    Function.extend f x 0 ⬝ᵥ A *ᵥ Function.extend f x 0 = x ⬝ᵥ A.submatrix f f *ᵥ x := by
  rw [dotProduct, sum_extend_mul hf]
  refine Finset.sum_congr rfl fun k _ ↦ congrArg (x k * ·) ?_
  rw [mulVec, dotProduct_comm, dotProduct, sum_extend_mul hf, mulVec, dotProduct_comm]
  rfl

theorem FormAtLeast.submatrix (h : FormAtLeast ε A) {f : κ → ι} (hf : Function.Injective f) :
    FormAtLeast ε (A.submatrix f f) := by
  refine ⟨h.symm.submatrix f, fun x ↦ ?_⟩
  have hle := h.le (Function.extend f x 0)
  have hlength : Function.extend f x 0 ⬝ᵥ Function.extend f x 0 = x ⬝ᵥ x := by
    rw [dotProduct, sum_extend_mul hf]
    exact Finset.sum_congr rfl fun k _ ↦ by rw [hf.extend_apply]
  rwa [hlength, form_extend hf] at hle

omit [Fintype ι] [DecidableEq ι] in
theorem PositiveDefinite.submatrix {m k : ℕ} {A : Matrix (Fin m) (Fin m) K}
    (h : PositiveDefinite A) {f : Fin k → Fin m} (hf : Function.Injective f) :
    PositiveDefinite (A.submatrix f f) := by
  refine ⟨h.symm.submatrix f, fun x hx ↦ ?_⟩
  rw [← form_extend hf]
  refine h.pos _ fun hzero ↦ hx (funext fun i ↦ ?_)
  rw [← hf.extend_apply x 0 i, hzero]
  rfl

omit [Fintype ι] [DecidableEq ι] in
theorem FormAtLeast.positiveDefinite [IsStrictOrderedRing K] {m : ℕ}
    {A : Matrix (Fin m) (Fin m) K} (h : FormAtLeast ε A) (hε : 0 < ε) : PositiveDefinite A := by
  refine ⟨h.symm, fun x hx ↦ ?_⟩
  obtain ⟨i, hi⟩ := Function.ne_iff.1 hx
  have hpos : 0 < x ⬝ᵥ x :=
    Finset.sum_pos' (fun j _ ↦ mul_self_nonneg (x j)) ⟨i, Finset.mem_univ i, mul_self_pos.2 hi⟩
  exact (mul_pos hε hpos).trans_le (h.le x)

omit [Fintype ι] [DecidableEq ι] in
theorem PositiveDefinite.mulVec_injective [IsStrictOrderedRing K] {m : ℕ}
    {A : Matrix (Fin m) (Fin m) K} (h : PositiveDefinite A) : Function.Injective (A *ᵥ ·) := by
  intro x y hxy
  by_contra hne
  have hpos := h.pos (x - y) (sub_ne_zero.2 hne)
  rw [mulVec_sub, sub_eq_zero.2 hxy, dotProduct_zero] at hpos
  exact lt_irrefl 0 hpos

end Zaciraci.Lib
