import Zaciraci.Portfolio.RiskParity
import Zaciraci.Portfolio.Sharpe

namespace Zaciraci.Portfolio

open Lib

section Model

variable {K : Type} [Field K] [LinearOrder K] {m n : ℕ}

def highVolatilityThreshold : K := 0.0157

def lowVolatilityThreshold : K := 0.00523

def predictionAlphaFloor : K := 0.5

def volatilityRatio (avgVolatility : K) : K :=
  max 0 (min ((avgVolatility - lowVolatilityThreshold) /
    (highVolatilityThreshold - lowVolatilityThreshold)) 1)

def volatilityBlendAlpha (avgVolatility : K) : K :=
  0.9 - volatilityRatio avgVolatility * (0.9 - 0.7)

/-- The blend factor of a token in `execute_portfolio_optimization`, by the confidence in its
predictions. -/
def tokenAlpha (alphaVol : K) : Option K → K
  | some c =>
    max predictionAlphaFloor
      (min (predictionAlphaFloor + (alphaVol - predictionAlphaFloor) * c) 0.9)
  | none => max (alphaVol * 0.5) predictionAlphaFloor

def blend (alphas wSharpe wRp : Fin m → K) : Fin m → K :=
  normalizeWeights fun i ↦ alphas i * wSharpe i + (1 - alphas i) * wRp i

def expandBlend (alphas : Fin n → K) (subset : List (Fin n)) (wSharpe wRp : Fin subset.length → K) :
    Fin n → K :=
  scatter subset (blend (fun i ↦ alphas (subset.get i)) wSharpe wRp) 0

def blendAndExpand (lib : Decompositions K) (sqrt : K → K) (subset : List (Fin n))
    (subReturns : Fin subset.length → K)
    (subCov : Matrix (Fin subset.length) (Fin subset.length) K) (maxPosition : K)
    (alphas : Fin n → K) : Fin n → K :=
  expandBlend alphas subset (boxMaximizeSharpe lib subReturns subCov maxPosition)
    (boxRiskParity sqrt subCov maxPosition)

end Model

section Cap

variable {K : Type} [Field K] [LinearOrder K] {m n : ℕ} {M : K} {alphas ws wr : Fin m → K}

theorem sum_mixture (hr : wr ∈ stdSimplex K (Fin m)) :
    ∑ i, (alphas i * ws i + (1 - alphas i) * wr i) = 1 - ∑ i, alphas i * (wr i - ws i) := by
  calc ∑ i, (alphas i * ws i + (1 - alphas i) * wr i) = ∑ i, (wr i - alphas i * (wr i - ws i)) :=
        Finset.sum_congr rfl fun i _ ↦ by ring
    _ = 1 - ∑ i, alphas i * (wr i - ws i) := by rw [Finset.sum_sub_distrib, hr.2]

variable [IsStrictOrderedRing K]

theorem volatilityBlendAlpha_mem (v : K) :
    volatilityBlendAlpha v ∈ Set.Icc (7 / 10) (9 / 10 : K) := by
  have hlow : 0 ≤ volatilityRatio v := le_max_left _ _
  have hhigh : volatilityRatio v ≤ 1 := max_le zero_le_one (min_le_right _ _)
  rw [volatilityBlendAlpha]
  constructor <;> linarith

theorem tokenAlpha_mem (v : K) (confidence : Option K) :
    tokenAlpha (volatilityBlendAlpha v) confidence ∈ Set.Icc (1 / 2) (9 / 10 : K) := by
  have hmem := volatilityBlendAlpha_mem v
  have hfloor : (predictionAlphaFloor : K) = 1 / 2 := by norm_num [predictionAlphaFloor]
  have hhigh : (0.9 : K) = 9 / 10 := by norm_num
  cases confidence with
  | some c =>
    rw [tokenAlpha, hfloor, hhigh]
    exact ⟨le_max_left _ _, max_le (by norm_num) (min_le_right _ _)⟩
  | none =>
    rw [tokenAlpha, hfloor]
    exact ⟨le_max_right _ _, max_le (by linarith [hmem.2]) (by norm_num)⟩

variable (hs : ws ∈ stdSimplex K (Fin m)) (hr : wr ∈ stdSimplex K (Fin m))
  (hα : ∀ i, alphas i ∈ Set.Icc (1 / 2) (9 / 10 : K))

include hs hr hα

theorem mixture_ge (i : Fin m) : 1 / 2 * ws i ≤ alphas i * ws i + (1 - alphas i) * wr i := by
  have hone : alphas i ≤ 1 := (hα i).2.trans (by norm_num)
  have hsharpe := mul_le_mul_of_nonneg_right (hα i).1 (hs.1 i)
  have hparity := mul_nonneg (sub_nonneg.2 hone) (hr.1 i)
  linarith

theorem sum_mixture_pos : 0 < ∑ i, (alphas i * ws i + (1 - alphas i) * wr i) := by
  have hle : 1 / 2 * ∑ i, ws i ≤ ∑ i, (alphas i * ws i + (1 - alphas i) * wr i) := by
    rw [Finset.mul_sum]
    exact Finset.sum_le_sum fun i _ ↦ mixture_ge hs hr hα i
  rw [hs.2] at hle
  linarith

theorem blend_mem : blend alphas ws wr ∈ stdSimplex K (Fin m) := by
  refine normalizeWeights_mem (fun i ↦ ?_) (sum_mixture_pos hs hr hα)
  exact le_trans (mul_nonneg one_half_pos.le (hs.1 i)) (mixture_ge hs hr hα i)

theorem blend_le_iff (i : Fin m) : blend alphas ws wr i ≤ M ↔
    M * ∑ j, alphas j * (wr j - ws j) ≤ M - (alphas i * ws i + (1 - alphas i) * wr i) := by
  have hpos := sum_mixture_pos hs hr hα
  rw [blend, normalizeWeights_apply hpos, div_le_iff₀ hpos, sum_mixture hr, mul_sub, mul_one]
  exact le_sub_comm

end Cap

section Shift

variable {K : Type} [Field K] {m : ℕ} {alphas : Fin m → K}

def shift (w : Fin m → K) (j k : Fin m) (e : K) : Fin m → K := w + Pi.single k e - Pi.single j e

theorem sum_mul_sub_shift (w : Fin m → K) (j k : Fin m) (e : K) :
    ∑ l, alphas l * (w l - shift w j k e l) = e * (alphas j - alphas k) := by
  have hterm (l : Fin m) : alphas l * (w l - shift w j k e l) =
      alphas l * (Pi.single j e : Fin m → K) l - alphas l * (Pi.single k e : Fin m → K) l := by
    simp only [shift, Pi.sub_apply, Pi.add_apply]
    ring
  simp only [hterm, Finset.sum_sub_distrib, Pi.single_apply, mul_ite, mul_zero,
    Finset.sum_ite_eq', Finset.mem_univ, if_true]
  ring

end Shift

section Capped

variable {K : Type} [Field K] [LinearOrder K] [IsStrictOrderedRing K] {m n : ℕ} {M : K}
  {alphas ws wr : Fin m → K}

structure Capped (M : K) (w : Fin m → K) : Prop where
  mem : w ∈ stdSimplex K (Fin m)
  le : ∀ i, w i ≤ M

theorem Capped.eq_of_tight (h : Capped M ws) (hM : m * M = 1) (i : Fin m) : ws i = M := by
  have hsum : ∑ j, ws j = ∑ _j : Fin m, M := by
    rw [h.mem.2, Finset.sum_const, Finset.card_univ, Fintype.card_fin, nsmul_eq_mul, hM]
  exact (Finset.sum_eq_sum_iff_of_le fun j _ ↦ h.le j).1 hsum i (Finset.mem_univ i)

theorem le_mixture {c : K} (hα : ∀ i, alphas i ∈ Set.Icc (1 / 2) (9 / 10 : K)) (i : Fin m)
    (hs : c ≤ ws i) (hr : c ≤ wr i) : c ≤ alphas i * ws i + (1 - alphas i) * wr i := by
  have hhalf := (hα i).1
  have hone : alphas i ≤ 1 := (hα i).2.trans (by norm_num)
  calc c = alphas i * c + (1 - alphas i) * c := by ring
    _ ≤ alphas i * ws i + (1 - alphas i) * wr i :=
        add_le_add (mul_le_mul_of_nonneg_left hs (by linarith))
          (mul_le_mul_of_nonneg_left hr (by linarith))

section Kept

variable (hs : Capped M ws) (hr : Capped M wr)
  (hα : ∀ i, alphas i ∈ Set.Icc (1 / 2) (9 / 10 : K))

include hs hr hα

theorem mixture_le (i : Fin m) : alphas i * ws i + (1 - alphas i) * wr i ≤ M := by
  have hhalf := (hα i).1
  have hone : alphas i ≤ 1 := (hα i).2.trans (by norm_num)
  calc alphas i * ws i + (1 - alphas i) * wr i ≤ alphas i * M + (1 - alphas i) * M :=
        add_le_add (mul_le_mul_of_nonneg_left (hs.le i) (by linarith))
          (mul_le_mul_of_nonneg_left (hr.le i) (by linarith))
    _ = M := by ring

theorem blend_le_of_one_le (hM : 1 ≤ M) (i : Fin m) : blend alphas ws wr i ≤ M := by
  have hmem := blend_mem hs.mem hr.mem hα
  have hle := Finset.single_le_sum (fun j _ ↦ hmem.1 j) (Finset.mem_univ i)
  rw [hmem.2] at hle
  exact hle.trans hM

theorem blend_le_of_tight (hM : m * M = 1) (i : Fin m) : blend alphas ws wr i ≤ M := by
  rw [blend_le_iff hs.mem hr.mem hα]
  simp only [hs.eq_of_tight hM, hr.eq_of_tight hM, sub_self, mul_zero, Finset.sum_const_zero]
  linarith

theorem blend_le_of_alphas_eq (h : ∀ i j, alphas i = alphas j) (i : Fin m) :
    blend alphas ws wr i ≤ M := by
  have hsum : ∑ j, alphas j * (wr j - ws j) = 0 := by
    calc ∑ j, alphas j * (wr j - ws j) = alphas i * ∑ j, (wr j - ws j) := by
          rw [Finset.mul_sum]
          exact Finset.sum_congr rfl fun j _ ↦ by rw [h j i]
      _ = 0 := by rw [Finset.sum_sub_distrib, hr.mem.2, hs.mem.2, sub_self, mul_zero]
  rw [blend_le_iff hs.mem hr.mem hα, hsum, mul_zero, sub_nonneg]
  exact mixture_le hs hr hα i

end Kept

theorem blend_le_of_pair {alphas ws wr : Fin 2 → K} (hs : Capped M ws) (hr : Capped M wr)
    (hα : ∀ i, alphas i ∈ Set.Icc (1 / 2) (9 / 10 : K)) (i : Fin 2) :
    blend alphas ws wr i ≤ M := by
  by_cases hM : 1 ≤ M
  · exact blend_le_of_one_le hs hr hα hM i
  have hpos := sum_mixture_pos hs.mem hr.mem hα
  rw [blend, normalizeWeights_apply hpos, div_le_iff₀ hpos, Fin.sum_univ_two]
  have hrest (w : Fin 2 → K) (hw : Capped M w) : 1 - M ≤ w 0 ∧ 1 - M ≤ w 1 := by
    have hsum := hw.mem.2
    rw [Fin.sum_univ_two] at hsum
    exact ⟨by linarith [hw.le 1], by linarith [hw.le 0]⟩
  have hnonneg : 0 ≤ M := (hs.mem.1 0).trans (hs.le 0)
  have hleft (j : Fin 2) (h : 1 - M ≤ ws j) (h' : 1 - M ≤ wr j) :
      (1 - M) * M ≤ M * (alphas j * ws j + (1 - alphas j) * wr j) := by
    rw [mul_comm]
    exact mul_le_mul_of_nonneg_left (le_mixture hα j h h') hnonneg
  have hfull (j : Fin 2) : (1 - M) * (alphas j * ws j + (1 - alphas j) * wr j) ≤ (1 - M) * M :=
    mul_le_mul_of_nonneg_left (mixture_le hs hr hα j) (by linarith)
  obtain ⟨hs₀, hs₁⟩ := hrest ws hs
  obtain ⟨hr₀, hr₁⟩ := hrest wr hr
  revert i
  rw [Fin.forall_fin_two]
  exact ⟨by linarith [hfull 0, hleft 1 hs₁ hr₁], by linarith [hfull 1, hleft 0 hs₀ hr₀]⟩

theorem exists_capped (hm : 2 < m) (hM : 1 < m * M) (hone : M < 1) (i : Fin m) :
    ∃ w : Fin m → K, ∃ u : K, Capped M w ∧ w i = M ∧ (∀ j ≠ i, w j = u) ∧ 0 < u ∧ u < M := by
  have hcount : (2 : K) < m := by exact_mod_cast hm
  have hpred : (0 : K) < m - 1 := by linarith
  have hu : 0 < (1 - M) / (m - 1) := div_pos (by linarith) hpred
  have huM : (1 - M) / (m - 1) < M := by
    rw [div_lt_iff₀ hpred]
    linarith
  have hwhole : (m - 1) * ((1 - M) / (m - 1)) = 1 - M := mul_div_cancel₀ _ hpred.ne'
  generalize (1 - M) / (m - 1 : K) = u at *
  refine ⟨Function.update (fun _ ↦ u) i M, u, ⟨⟨fun j ↦ ?_, ?_⟩, fun j ↦ ?_⟩,
    Function.update_self .., fun j hj ↦ Function.update_of_ne hj .., hu, huM⟩
  · rw [Function.update_apply]
    split_ifs <;> linarith
  · rw [Finset.sum_update_of_mem (Finset.mem_univ i), Finset.sum_const, nsmul_eq_mul,
      Finset.card_sdiff_of_subset (Finset.subset_univ _), Finset.card_univ, Fintype.card_fin,
      Finset.card_singleton, Nat.cast_sub (by omega), Nat.cast_one, hwhole]
    ring
  · rw [Function.update_apply]
    split_ifs <;> linarith

theorem Capped.shift {w : Fin m → K} (h : Capped M w) {j k : Fin m} (hne : j ≠ k) {e : K}
    (he : 0 ≤ e) (hj : e ≤ w j) (hk : w k + e ≤ M) : Capped M (shift w j k e) := by
  have hbetween (l : Fin m) : 0 ≤ Portfolio.shift w j k e l ∧ Portfolio.shift w j k e l ≤ M := by
    have hnonneg := h.mem.1 l
    have hle := h.le l
    simp only [Portfolio.shift, Pi.sub_apply, Pi.add_apply, Pi.single_apply]
    split_ifs with hlk hlj hlj
    · exact absurd (hlj.symm.trans hlk) hne
    · subst hlk
      constructor <;> linarith
    · subst hlj
      constructor <;> linarith
    · constructor <;> linarith
  refine ⟨⟨fun l ↦ (hbetween l).1, ?_⟩, fun l ↦ (hbetween l).2⟩
  simp [Portfolio.shift, Finset.sum_add_distrib, h.mem.2]

/-- Among three tokens with two different factors, one can be full in both portfolios while the
other two make the mixture lose weight. -/
theorem exists_blend_gt (hα : ∀ i, alphas i ∈ Set.Icc (1 / 2) (9 / 10 : K)) (hm : 2 < m)
    (hM : 1 < m * M) (hone : M < 1) {j k : Fin m} (h : alphas k < alphas j) :
    ∃ ws wr, Capped M ws ∧ Capped M wr ∧ ∃ i, M < blend alphas ws wr i := by
  have hne : j ≠ k := fun heq ↦ h.ne (congrArg alphas heq.symm)
  obtain ⟨i, hij, hik⟩ := Fin.exists_ne_and_ne_of_two_lt j k hm
  obtain ⟨wr, u, hr, hfull, hothers, hu, huM⟩ := exists_capped hm hM hone i
  let e := min u (M - u)
  have he : 0 < e := lt_min hu (by linarith)
  have hs : Capped M (shift wr j k e) := by
    apply hr.shift hne he.le
    · rw [hothers j hij.symm]
      exact min_le_left _ _
    · rw [hothers k hik.symm]
      linarith [min_le_right u (M - u)]
  refine ⟨_, wr, hs, hr, i, ?_⟩
  have hfull' : shift wr j k e i = M := by simp [shift, hfull, hij, hik]
  rw [← not_le, blend_le_iff hs.mem hr.mem hα, sum_mul_sub_shift, hfull, hfull', not_le]
  have hpos : 0 < M * (e * (alphas j - alphas k)) :=
    mul_pos (hu.trans huM) (mul_pos he (sub_pos.2 h))
  linarith

/-- The cap survives the normalisation for all portfolios only where it hardly matters. -/
theorem blend_cap_iff (hα : ∀ i, alphas i ∈ Set.Icc (1 / 2) (9 / 10 : K)) (hM : 1 ≤ m * M) :
    (∀ ws wr, Capped M ws → Capped M wr → ∀ i, blend alphas ws wr i ≤ M) ↔
      m ≤ 2 ∨ m * M = 1 ∨ 1 ≤ M ∨ ∀ i j, alphas i = alphas j := by
  constructor
  · intro hkept
    by_contra! hall
    obtain ⟨hm, htight, hone, j, k, hjk⟩ := hall
    have hlt : 1 < m * M := lt_of_le_of_ne hM htight.symm
    have hover {j k : Fin m} (h : alphas k < alphas j) : False := by
      obtain ⟨ws, wr, hs, hr, i, hi⟩ := exists_blend_gt hα hm hlt hone h
      exact hi.not_ge (hkept ws wr hs hr i)
    exact hjk.lt_or_gt.elim hover hover
  · rintro (hm | hm | hm | hm) ws wr hs hr i
    · obtain hm | rfl := hm.lt_or_eq
      · refine blend_le_of_one_le hs hr hα ?_ i
        have hpos := i.pos
        obtain rfl : m = 1 := by omega
        simpa using hM
      · exact blend_le_of_pair hs hr hα i
    · exact blend_le_of_tight hs hr hα hm i
    · exact blend_le_of_one_le hs hr hα hm i
    · exact blend_le_of_alphas_eq hs hr hα hm i

/-- The blend is a portfolio. It keeps to the cap for all portfolios that do exactly if there are
at most two tokens, all of them have to be full, the cap is no cap, or there is one factor. -/
theorem expandBlend_cap_iff (alphas : Fin n → K) (subset : List (Fin n)) (hnodup : subset.Nodup)
    (M : K) (hM : 1 ≤ subset.length * M) (hα : ∀ i, alphas i ∈ Set.Icc (1 / 2) (9 / 10 : K)) :
    (∀ ws wr, Capped M ws → Capped M wr → ∑ i, expandBlend alphas subset ws wr i = 1) ∧
      ((∀ ws wr, Capped M ws → Capped M wr → ∀ i, expandBlend alphas subset ws wr i ≤ M) ↔
        subset.length ≤ 2 ∨ subset.length * M = 1 ∨ 1 ≤ M ∨
          ∀ i ∈ subset, ∀ j ∈ subset, alphas i = alphas j) := by
  have hα' (i) : alphas (subset.get i) ∈ Set.Icc (1 / 2) (9 / 10 : K) := hα _
  refine ⟨fun ws wr hs hr ↦ ?_, ?_⟩
  · rw [expandBlend, sum_scatter hnodup, (blend_mem hs.mem hr.mem hα').2]
    simp
  have hequal : (∀ i ∈ subset, ∀ j ∈ subset, alphas i = alphas j) ↔
      ∀ i j, alphas (subset.get i) = alphas (subset.get j) := by
    simp only [List.forall_mem_iff_get]
  rw [hequal, ← blend_cap_iff hα' hM]
  refine forall₄_congr fun ws wr hs hr ↦ ⟨fun h i ↦ ?_, fun h i ↦ ?_⟩
  · have hi := h (subset.get i)
    rwa [expandBlend, scatter_get hnodup] at hi
  · have hpos : 0 ≤ M := by
      by_contra! hneg
      have hle : subset.length * M ≤ 0 := mul_nonpos_of_nonneg_of_nonpos (Nat.cast_nonneg _) hneg.le
      linarith
    exact scatter_induct hnodup (P := (· ≤ M)) h fun _ ↦ hpos

end Capped

theorem expandBlend_cap_uniform :
    ∑ i, expandBlend (fun _ ↦ 7 / 10 : Fin 4 → ℚ) [0, 2, 3] ![1 / 2, 1 / 2, 0]
        ![1 / 3, 1 / 3, 1 / 3] i = 1 ∧
      ∀ i, expandBlend (fun _ ↦ 7 / 10 : Fin 4 → ℚ) [0, 2, 3] ![1 / 2, 1 / 2, 0]
        ![1 / 3, 1 / 3, 1 / 3] i ≤ 1 / 2 := by
  obtain ⟨hsum, hcap⟩ := expandBlend_cap_iff (fun _ ↦ 7 / 10 : Fin 4 → ℚ) [0, 2, 3] (by decide)
    (1 / 2) (by decide +kernel) fun _ ↦ by norm_num
  have hs : Capped (1 / 2 : ℚ) ![1 / 2, 1 / 2, 0] :=
    ⟨⟨by decide +kernel, by decide +kernel⟩, by decide +kernel⟩
  have hr : Capped (1 / 2 : ℚ) ![1 / 3, 1 / 3, 1 / 3] :=
    ⟨⟨by decide +kernel, by decide +kernel⟩, by decide +kernel⟩
  exact ⟨hsum _ _ hs hr, hcap.2 (.inr (.inr (.inr fun _ _ _ _ ↦ rfl))) _ _ hs hr⟩

/-- The square root of a rational number that has a rational one. -/
def rationalRoot (x : ℚ) : ℚ := x.num.natAbs.sqrt / x.den.sqrt

def blendReturns : Fin 3 → ℚ := ![1 / 50, 1 / 50, -1 / 100]

def blendCov : Matrix (Fin 3) (Fin 3) ℚ := 3 • 1

/-- Both portfolios keep to a cap of one half, and so does their mixture. It sums to 14/15 only, and
the normalisation puts the first token above the cap. -/
theorem blendAndExpand_over_cap :
    boxMaximizeSharpe eliminating blendReturns blendCov (1 / 2) = ![1 / 2, 1 / 2, 0] ∧
      boxRiskParity rationalRoot blendCov (1 / 2) = ![1 / 3, 1 / 3, 1 / 3] ∧
      blendAndExpand eliminating rationalRoot [0, 1, 2] blendReturns blendCov (1 / 2)
        ![9 / 10, 1 / 2, 9 / 10] 0 = 29 / 56 ∧
      ¬ (29 / 56 : ℚ) ≤ 1 / 2 := by
  refine ⟨?_, ?_, by decide +kernel, by norm_num⟩
  · decide +kernel
  · decide +kernel

end Zaciraci.Portfolio
