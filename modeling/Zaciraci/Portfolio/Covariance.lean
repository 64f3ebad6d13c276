import Mathlib.Analysis.Matrix.Spectrum
import Mathlib.Data.List.OfFn
import Zaciraci.Lib.QuadraticForm
import Zaciraci.Portfolio.Sharpe

namespace Zaciraci.Portfolio

open Lib Matrix

section Model

variable {K : Type} [Field K] [LinearOrder K] {n : ℕ}

def aligned (t : ℕ) (r : List K) : List K := r.drop (r.length - t)

def calculateCovariance (returns1 returns2 : List K) : K :=
  let minLen := min returns1.length returns2.length
  if minLen < 2 then 0
  else
    let r1 := aligned minLen returns1
    let r2 := aligned minLen returns2
    let mean1 := r1.sum / minLen
    let mean2 := r2.sum / minLen
    (List.zipWith (fun v1 v2 ↦ (v1 - mean1) * (v2 - mean2)) r1 r2).sum / (minLen - 1 : ℕ)

def commonLength (dailyReturns : Fin n → List K) : ℕ :=
  (List.ofFn fun i ↦ (dailyReturns i).length).min?.getD 0

def sampleCov (t : ℕ) (dailyReturns : Fin n → List K) : Matrix (Fin n) (Fin n) K := fun i j ↦
  calculateCovariance (aligned t (dailyReturns (min i j))) (aligned t (dailyReturns (max i j)))

def centred (t : ℕ) (dailyReturns : Fin n → List K) (day : Fin t) (i : Fin n) : K :=
  (aligned t (dailyReturns i)).getD day 0 - (aligned t (dailyReturns i)).sum / t

/-- The sum over a symmetric array, as the loops over its upper triangle form it. -/
def triangleSum (f : Fin n → Fin n → K) : K :=
  ∑ i, (f i i + ∑ j ∈ Finset.Ioi i, 2.0 * f i j)

def ledoitWolfShrink (dailyReturns : Fin n → List K) : Matrix (Fin n) (Fin n) K :=
  if n ≤ 1 then of fun i _ ↦
    let r := dailyReturns i
    if r = [] then 0
    else
      let mean := r.sum / r.length
      (r.map fun v ↦ (v - mean) ^ 2).sum / max (r.length - 1 : K) 1
  else
    let t := commonLength dailyReturns
    if t < 2 then 0
    else
      let cov := sampleCov t dailyReturns
      let mu := (∑ i, cov i i) / n
      let deltaSq := triangleSum fun i j ↦ if i = j then (cov i i - mu) ^ 2 else cov i j ^ 2
      if deltaSq < 1e-30 then of fun i j ↦ if i = j then mu else 0
      else
        let betaHat := (∑ day, triangleSum fun i j ↦
          (centred t dailyReturns day i * centred t dailyReturns day j - cov i j) ^ 2) / (t * t)
        let shrinkage := max 0 (min (betaHat / deltaSq) 1)
        of fun i j ↦
          if i = j then shrinkage * mu + (1 - shrinkage) * cov i i
          else (1 - shrinkage) * cov (min i j) (max i j)

/-- `symmetric_eigen` of the linear algebra library. -/
structure SymmetricEigen (K : Type) where
  eigenvalues : {m : ℕ} → Matrix (Fin m) (Fin m) K → Fin m → K
  eigenvectors : {m : ℕ} → Matrix (Fin m) (Fin m) K → Matrix (Fin m) (Fin m) K

def SymmetricEigen.Exact (eigen : SymmetricEigen K) : Prop :=
  ∀ {m : ℕ} (A : Matrix (Fin m) (Fin m) K), A.IsSymm →
    eigen.eigenvectors A * (eigen.eigenvectors A)ᵀ = 1 ∧
    eigen.eigenvectors A * diagonal (eigen.eigenvalues A) * (eigen.eigenvectors A)ᵀ = A

def minEigenvalueThreshold : K := 1e-6

def ensurePositiveSemiDefinite (eigen : SymmetricEigen K) (cov : Matrix (Fin n) (Fin n) K) :
    Matrix (Fin n) (Fin n) K :=
  if n ≤ 1 then cov
  else if ∀ i, minEigenvalueThreshold ≤ eigen.eigenvalues cov i then cov
  else
    let clamped := diagonal fun i ↦ max (eigen.eigenvalues cov i) minEigenvalueThreshold
    eigen.eigenvectors cov * clamped * (eigen.eigenvectors cov)ᵀ

def calculateCovarianceMatrix (eigen : SymmetricEigen K) (dailyReturns : Fin n → List K) :
    Matrix (Fin n) (Fin n) K :=
  if n = 0 then 0 else ensurePositiveSemiDefinite eigen (ledoitWolfShrink dailyReturns)

end Model

section Series

variable {K : Type} {n t : ℕ} {r r₁ r₂ : List K}

theorem length_aligned (h : t ≤ r.length) : (aligned t r).length = t := by
  rw [aligned, List.length_drop]
  omega

theorem aligned_self (h : r.length = t) : aligned t r = r := by
  rw [aligned, h, Nat.sub_self, List.drop_zero]

theorem commonLength_le (dailyReturns : Fin n → List K) (i : Fin n) :
    commonLength dailyReturns ≤ (dailyReturns i).length := by
  rw [commonLength]
  cases hmin : (List.ofFn fun i ↦ (dailyReturns i).length).min? with
  | none => exact Nat.zero_le _
  | some a =>
    rw [Option.getD_some]
    exact (List.min?_eq_some_iff.1 hmin).2 _ (List.mem_ofFn.2 ⟨i, rfl⟩)

variable [Field K]

theorem sum_zipWith (f : K → K → K) (h₁ : r₁.length = t) (h₂ : r₂.length = t) :
    (List.zipWith f r₁ r₂).sum = ∑ day : Fin t, f (r₁.getD day 0) (r₂.getD day 0) := by
  have hofFn : List.zipWith f r₁ r₂ =
      List.ofFn fun day : Fin t ↦ f (r₁.getD day 0) (r₂.getD day 0) := by
    refine List.ext_getElem (by simp [h₁, h₂]) fun i hi _ ↦ ?_
    rw [List.length_zipWith] at hi
    simp [List.getElem?_eq_getElem (lt_min_iff.1 hi).1,
      List.getElem?_eq_getElem (lt_min_iff.1 hi).2]
  rw [hofFn, List.sum_ofFn]

theorem calculateCovariance_eq (h₁ : r₁.length = t) (h₂ : r₂.length = t) (ht : 2 ≤ t) :
    calculateCovariance r₁ r₂ =
      (∑ day : Fin t, (r₁.getD day 0 - r₁.sum / t) * (r₂.getD day 0 - r₂.sum / t)) /
        (t - 1 : ℕ) := by
  rw [calculateCovariance]
  dsimp only
  rw [h₁, h₂, min_self, if_neg (by omega), aligned_self h₁, aligned_self h₂, sum_zipWith _ h₁ h₂]

def covarianceOf (t : ℕ) (dailyReturns : Fin n → List K) : Matrix (Fin n) (Fin n) K :=
  ((t - 1 : ℕ) : K)⁻¹ • ((of (centred t dailyReturns))ᵀ * of (centred t dailyReturns))

theorem covarianceOf_apply (dailyReturns : Fin n → List K) (i j : Fin n) :
    covarianceOf t dailyReturns i j =
      (∑ day, centred t dailyReturns day i * centred t dailyReturns day j) / (t - 1 : ℕ) := by
  rw [covarianceOf, Matrix.smul_apply, smul_eq_mul, div_eq_inv_mul]
  rfl

theorem covarianceOf_isSymm (dailyReturns : Fin n → List K) :
    (covarianceOf t dailyReturns).IsSymm := by
  refine IsSymm.ext fun i j ↦ ?_
  simp only [covarianceOf_apply, mul_comm]

theorem covarianceOf_short (ht : t < 2) (dailyReturns : Fin n → List K) :
    covarianceOf t dailyReturns = 0 := by
  have hzero : t - 1 = 0 := by omega
  simp [covarianceOf, hzero]

theorem sampleCov_eq {dailyReturns : Fin n → List K} (ht : 2 ≤ t)
    (hlength : ∀ i, t ≤ (dailyReturns i).length) :
    sampleCov t dailyReturns = covarianceOf t dailyReturns := by
  have hentry (i j : Fin n) :
      calculateCovariance (aligned t (dailyReturns i)) (aligned t (dailyReturns j)) =
        covarianceOf t dailyReturns i j := by
    rw [calculateCovariance_eq (length_aligned (hlength i)) (length_aligned (hlength j)) ht,
      covarianceOf_apply]
    rfl
  ext i j
  rw [sampleCov, hentry]
  rcases le_total i j with h | h
  · rw [min_eq_left h, max_eq_right h]
  · rw [min_eq_right h, max_eq_left h, (covarianceOf_isSymm dailyReturns).apply]

end Series

section Shrinkage

variable {K : Type} [Field K] {n t : ℕ}

/-- The multiple of the identity that has the trace of `S`. -/
def target (S : Matrix (Fin n) (Fin n) K) : Matrix (Fin n) (Fin n) K := (trace S / n) • 1

/-- The part of the target in the estimate, from the distances of the days' products and of the
target to the sample covariance. -/
def intensity [LinearOrder K] (X : Fin t → Fin n → K) (S : Matrix (Fin n) (Fin n) K) : K :=
  if frobeniusSq (S - target S) < 1e-30 then 1
  else max 0 (min ((∑ day, frobeniusSq (vecMulVec (X day) (X day) - S)) / (t * t) /
    frobeniusSq (S - target S)) 1)

theorem triangleSum_eq [CharZero K] {f : Fin n → Fin n → K} (hf : ∀ i j, f i j = f j i) :
    triangleSum f = ∑ i, ∑ j, f i j := by
  have htwo : (2.0 : K) = 2 := by norm_num
  rw [triangleSum, htwo, sum_symm hf]

theorem trace_target [CharZero K] (S : Matrix (Fin n) (Fin n) K) : trace (target S) = trace S := by
  rw [target, trace_smul, trace_one, Fintype.card_fin, smul_eq_mul]
  rcases Nat.eq_zero_or_pos n with rfl | hn
  · simp [trace]
  · exact div_mul_cancel₀ _ (Nat.cast_ne_zero.2 hn.ne')

theorem target_apply (S : Matrix (Fin n) (Fin n) K) (i j : Fin n) :
    target S i j = if i = j then (∑ i, S i i) / n else 0 := by
  rw [target, Matrix.smul_apply, one_apply, smul_eq_mul, mul_ite, mul_one, mul_zero]
  rfl

variable {S : Matrix (Fin n) (Fin n) K}

theorem triangleSum_target [CharZero K] (hS : S.IsSymm) :
    (triangleSum fun i j ↦ if i = j then (S i i - (∑ i, S i i) / n) ^ 2 else S i j ^ 2) =
      frobeniusSq (S - target S) := by
  rw [triangleSum_eq, frobeniusSq]
  · refine Finset.sum_congr rfl fun i _ ↦ Finset.sum_congr rfl fun j _ ↦ ?_
    rw [Matrix.sub_apply, target_apply]
    split_ifs with hij
    · rw [hij]
    · rw [sub_zero]
  · intro i j
    rcases eq_or_ne i j with rfl | hij
    · rfl
    · rw [if_neg hij, if_neg hij.symm, hS.apply]

theorem triangleSum_day [CharZero K] (hS : S.IsSymm) (x : Fin n → K) :
    (triangleSum fun i j ↦ (x i * x j - S i j) ^ 2) = frobeniusSq (vecMulVec x x - S) :=
  triangleSum_eq fun i j ↦ by rw [hS.apply, mul_comm]

theorem shrunk_small (hn : n ≤ 1) (S : Matrix (Fin n) (Fin n) K) (s : K) :
    s • target S + (1 - s) • S = S := by
  have htarget : target S = S := by
    ext i j
    obtain rfl : n = 1 := by
      have := i.isLt
      omega
    obtain rfl := Subsingleton.elim i j
    obtain rfl := Subsingleton.elim i 0
    rw [target_apply, if_pos rfl, Fin.sum_univ_one, Nat.cast_one, div_one]
  rw [htarget, ← add_smul, add_sub_cancel, one_smul]

variable [LinearOrder K] [IsStrictOrderedRing K]

theorem formAtLeast_covarianceOf (dailyReturns : Fin n → List K) :
    FormAtLeast 0 (covarianceOf t dailyReturns) := by
  have hgram := formAtLeast_gram (of (centred t dailyReturns))
  have hcombined := hgram.combine hgram (inv_nonneg.2 (Nat.cast_nonneg (t - 1))) le_rfl
  rwa [mul_zero, mul_zero, add_zero, zero_smul, add_zero] at hcombined

theorem trace_nonneg (hS : FormAtLeast 0 S) : 0 ≤ trace S := by
  refine Finset.sum_nonneg fun i _ ↦ ?_
  have hle := hS.le (Pi.single i 1)
  rwa [zero_mul, single_one_dotProduct, mulVec_single_one] at hle

theorem intensity_mem (X : Fin t → Fin n → K) (S : Matrix (Fin n) (Fin n) K) :
    intensity X S ∈ Set.Icc 0 1 := by
  rw [intensity]
  split_ifs
  · exact ⟨zero_le_one, le_rfl⟩
  · exact ⟨le_max_left _ _, max_le zero_le_one (min_le_right _ _)⟩

theorem formAtLeast_shrunk (hS : FormAtLeast 0 S) {s : K} (hs : s ∈ Set.Icc 0 1) :
    FormAtLeast (s * (trace S / n)) (s • target S + (1 - s) • S) := by
  have hmu : 0 ≤ trace S / n := div_nonneg (trace_nonneg hS) (Nat.cast_nonneg n)
  have hcombined := (formAtLeast_one (ι := Fin n)).combine hS (mul_nonneg hs.1 hmu)
    (sub_nonneg.2 hs.2)
  rwa [mul_one, mul_zero, add_zero, ← smul_smul] at hcombined

theorem variance_eq (r : List K) :
    (if r = [] then 0
      else (r.map fun v ↦ (v - r.sum / r.length) ^ 2).sum / max (r.length - 1 : K) 1) =
      (∑ day : Fin r.length,
        (r.getD day 0 - r.sum / r.length) * (r.getD day 0 - r.sum / r.length)) /
        (r.length - 1 : ℕ) := by
  have hsum : (r.map fun v ↦ (v - r.sum / r.length) ^ 2).sum =
      ∑ day : Fin r.length,
        (r.getD day 0 - r.sum / r.length) * (r.getD day 0 - r.sum / r.length) := by
    rw [← sum_zipWith (fun v w ↦ (v - r.sum / r.length) * (w - r.sum / r.length)) rfl rfl,
      List.zipWith_self]
    simp only [sq]
  rw [← hsum]
  match r with
  | [] => simp
  | [a] => simp
  | a :: b :: r =>
    rw [if_neg (List.cons_ne_nil _ _), max_eq_left, Nat.cast_sub (by simp), Nat.cast_one]
    simp

theorem ledoitWolfShrink_small (hn : n ≤ 1) (dailyReturns : Fin n → List K) :
    ledoitWolfShrink dailyReturns = covarianceOf (commonLength dailyReturns) dailyReturns := by
  rw [ledoitWolfShrink, if_pos hn]
  ext i j
  obtain rfl : n = 1 := by
    have := i.isLt
    omega
  obtain rfl := Subsingleton.elim i 0
  obtain rfl := Subsingleton.elim j 0
  have hlength : commonLength dailyReturns = (dailyReturns 0).length := by
    simp [commonLength]
  rw [covarianceOf_apply, hlength]
  simp only [centred, aligned_self]
  exact variance_eq (dailyReturns 0)

theorem ledoitWolfShrink_shrunk (dailyReturns : Fin n → List K) :
    ledoitWolfShrink dailyReturns =
      intensity (centred (commonLength dailyReturns) dailyReturns)
          (covarianceOf (commonLength dailyReturns) dailyReturns) •
        target (covarianceOf (commonLength dailyReturns) dailyReturns) +
      (1 - intensity (centred (commonLength dailyReturns) dailyReturns)
          (covarianceOf (commonLength dailyReturns) dailyReturns)) •
        covarianceOf (commonLength dailyReturns) dailyReturns := by
  rcases Nat.lt_or_ge 1 n with hn | hn
  · rw [ledoitWolfShrink, if_neg (by omega)]
    dsimp only
    set t := commonLength dailyReturns with ht
    rcases Nat.lt_or_ge t 2 with hshort | hlong
    · rw [if_pos hshort, covarianceOf_short hshort]
      simp [target]
    · rw [if_neg (by omega), sampleCov_eq hlong (commonLength_le dailyReturns)]
      set S := covarianceOf t dailyReturns
      have hS : S.IsSymm := covarianceOf_isSymm dailyReturns
      simp only [triangleSum_target hS, triangleSum_day hS]
      rw [intensity]
      split_ifs with hdelta
      · ext i j
        rw [one_smul, sub_self, zero_smul, add_zero, target_apply, of_apply]
      · ext i j
        rw [Matrix.add_apply, Matrix.smul_apply, Matrix.smul_apply, target_apply, of_apply]
        split_ifs with hij
        · rw [hij, smul_eq_mul, smul_eq_mul]
        · rw [smul_zero, zero_add, smul_eq_mul]
          rcases le_total i j with h | h
          · rw [min_eq_left h, max_eq_right h]
          · rw [min_eq_right h, max_eq_left h, hS.apply]
  · rw [shrunk_small hn, ledoitWolfShrink_small hn]

/-- The estimate lies between the sample covariance of the common days and the target, keeps the
trace, and no portfolio has a variance below the target's part of it. -/
theorem ledoitWolfShrink_estimate (dailyReturns : Fin n → List K) :
    let S := covarianceOf (commonLength dailyReturns) dailyReturns
    let s := intensity (centred (commonLength dailyReturns) dailyReturns) S
    ledoitWolfShrink dailyReturns = s • target S + (1 - s) • S ∧ s ∈ Set.Icc 0 1 ∧
      trace (ledoitWolfShrink dailyReturns) = trace S ∧ 0 ≤ trace S ∧
      FormAtLeast (s * (trace S / n)) (ledoitWolfShrink dailyReturns) := by
  have hS := formAtLeast_covarianceOf (t := commonLength dailyReturns) dailyReturns
  have hs := intensity_mem (centred (commonLength dailyReturns) dailyReturns)
    (covarianceOf (commonLength dailyReturns) dailyReturns)
  refine ⟨ledoitWolfShrink_shrunk dailyReturns, hs, ?_, trace_nonneg hS, ?_⟩
  · rw [ledoitWolfShrink_shrunk, trace_add, trace_smul, trace_smul, trace_target, ← add_smul,
      add_sub_cancel, one_smul]
  · rw [ledoitWolfShrink_shrunk]
    exact formAtLeast_shrunk hS hs

theorem ledoitWolfShrink_estimate_twoDays :
    trace (ledoitWolfShrink ![[1 / 100, 3 / 100], [0, (1 / 50 : ℚ)]]) = 1 / 2500 :=
  (ledoitWolfShrink_estimate ![[1 / 100, 3 / 100], [0, (1 / 50 : ℚ)]]).2.2.1.trans
    (by decide +kernel)

end Shrinkage

section Floor

variable {K : Type} [Field K] [LinearOrder K] {n : ℕ} {eigen : SymmetricEigen K}
  {lib : Decompositions K} {cov : Matrix (Fin n) (Fin n) K}

variable [IsStrictOrderedRing K]

theorem minEigenvalueThreshold_pos : 0 < (minEigenvalueThreshold : K) := by
  rw [minEigenvalueThreshold]
  positivity

theorem ensurePositiveSemiDefinite_floor (heigen : eigen.Exact) (hn : 2 ≤ n)
    (hcov : FormAtLeast 0 cov) :
    FormAtLeast minEigenvalueThreshold (ensurePositiveSemiDefinite eigen cov) ∧
      ∀ x, x ⬝ᵥ cov *ᵥ x ≤ x ⬝ᵥ ensurePositiveSemiDefinite eigen cov *ᵥ x ∧
        x ⬝ᵥ ensurePositiveSemiDefinite eigen cov *ᵥ x ≤
          x ⬝ᵥ cov *ᵥ x + minEigenvalueThreshold * (x ⬝ᵥ x) := by
  obtain ⟨hV, hcov_eq⟩ := heigen cov hcov.symm
  have hnonneg := FormAtLeast.le_spectral hV (hcov_eq.symm ▸ hcov)
  rw [ensurePositiveSemiDefinite, if_neg (by omega)]
  split_ifs with hleast
  · have hform := formAtLeast_spectral hV hleast
    rw [hcov_eq] at hform
    refine ⟨hform, fun x ↦ ⟨le_rfl, le_add_of_nonneg_right ?_⟩⟩
    exact mul_nonneg minEigenvalueThreshold_pos.le (Finset.sum_nonneg fun i _ ↦ mul_self_nonneg _)
  · refine ⟨formAtLeast_spectral hV fun i ↦ le_max_right _ _, fun x ↦ ?_⟩
    have hraised := form_spectral_raised hV (eigen.eigenvalues cov)
      (fun i ↦ max (eigen.eigenvalues cov i) minEigenvalueThreshold)
      (fun i ↦ le_max_left _ _) (fun i ↦ max_le (le_add_of_nonneg_right
        minEigenvalueThreshold_pos.le) (le_add_of_nonneg_left (hnonneg i))) x
    rwa [hcov_eq] at hraised

/-- Every portfolio's variance under the finished matrix is at least `1e-6` times its length, and
at most that much above the variance under the estimate. The linear systems of the Sharpe
optimisation, whichever assets are free, are then solved without the fallbacks. -/
theorem calculateCovarianceMatrix_solvable (lib : Decompositions K) (heigen : eigen.Exact)
    (hlib : lib.Exact) (hn : 2 ≤ n) (dailyReturns : Fin n → List K) :
    FormAtLeast minEigenvalueThreshold (calculateCovarianceMatrix eigen dailyReturns) ∧
      (∀ x, x ⬝ᵥ ledoitWolfShrink dailyReturns *ᵥ x ≤
          x ⬝ᵥ calculateCovarianceMatrix eigen dailyReturns *ᵥ x ∧
        x ⬝ᵥ calculateCovarianceMatrix eigen dailyReturns *ᵥ x ≤
          x ⬝ᵥ ledoitWolfShrink dailyReturns *ᵥ x + minEigenvalueThreshold * (x ⬝ᵥ x)) ∧
      ∀ active : List (Fin n), active.Nodup → ∀ rhs, ∃ x,
        let A := (calculateCovarianceMatrix eigen dailyReturns).submatrix active.get active.get
        lib.solve A rhs = some x ∧ A *ᵥ x = rhs := by
  have hestimate : FormAtLeast 0 (ledoitWolfShrink dailyReturns) := by
    have hS := formAtLeast_covarianceOf (t := commonLength dailyReturns) dailyReturns
    have hs := intensity_mem (centred (commonLength dailyReturns) dailyReturns)
      (covarianceOf (commonLength dailyReturns) dailyReturns)
    rw [ledoitWolfShrink_shrunk]
    refine (formAtLeast_shrunk hS hs).mono ?_
    exact mul_nonneg hs.1 (div_nonneg (trace_nonneg hS) (Nat.cast_nonneg n))
  rw [calculateCovarianceMatrix, if_neg (by omega)]
  obtain ⟨hfloor, hraised⟩ := ensurePositiveSemiDefinite_floor heigen hn hestimate
  refine ⟨hfloor, hraised, fun active hactive rhs ↦ hlib.solve_eq ?_ rhs⟩
  exact (hfloor.submatrix (List.nodup_iff_injective_get.1 hactive)).positiveDefinite
    minEigenvalueThreshold_pos

end Floor

section Real

/-- What the spectral theorem gives, in the place of the library. -/
noncomputable def spectral : SymmetricEigen ℝ where
  eigenvalues A := if h : A.IsHermitian then h.eigenvalues else 0
  eigenvectors A := if h : A.IsHermitian then h.eigenvectorUnitary else 1

theorem spectral_exact : spectral.Exact := by
  intro m A hA
  have hhermitian : A.IsHermitian := by
    rw [IsHermitian, conjTranspose_eq_transpose_of_trivial, hA.eq]
  have hstar : (hhermitian.eigenvectorUnitary : Matrix (Fin m) (Fin m) ℝ)ᵀ =
      star (hhermitian.eigenvectorUnitary : Matrix (Fin m) (Fin m) ℝ) :=
    (conjTranspose_eq_transpose_of_trivial _).symm
  simp only [spectral, dif_pos hhermitian, hstar]
  refine ⟨Unitary.coe_mul_star_self _, ?_⟩
  conv_rhs => rw [hhermitian.spectral_theorem, Unitary.conjStarAlgAut_apply]
  rfl

/-- Elimination over the reals, in the place of the library. -/
noncomputable def realEliminating : Decompositions ℝ where
  cholesky := eliminate
  lu := fun _ _ ↦ none

theorem calculateCovarianceMatrix_solvable_constant :
    FormAtLeast minEigenvalueThreshold
      (calculateCovarianceMatrix spectral ![[1 / 100, 1 / 100, 1 / 100], [0, 1 / 50, 0]]) :=
  (calculateCovarianceMatrix_solvable realEliminating spectral_exact
    (fun _ h ↦ eliminate_exact h) le_rfl ![[1 / 100, 1 / 100, 1 / 100], [0, 1 / 50, 0]]).1

end Real

end Zaciraci.Portfolio
