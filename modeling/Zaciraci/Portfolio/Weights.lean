import Zaciraci.Lib.Simplex

namespace Zaciraci.Portfolio

open Lib

variable {K : Type} [Field K] [LinearOrder K] {n : ℕ}

def normalizeWeights (weights : Fin n → K) : Fin n → K :=
  if 0 < ∑ i, weights i then fun i ↦ weights i / ∑ j, weights j else weights

def clampAndNormalize (weights : Fin n → K) (maxPosition : K) : Fin n → K :=
  normalizeWeights fun i ↦ max 0 (min (weights i) maxPosition)

def defaultWeights (n : ℕ) : Fin n → K := fun _ ↦ 1 / n

/-- A cap that leaves no room for a whole portfolio is raised until it does. -/
def effectiveMax (n : ℕ) (maxPosition : K) : K :=
  if n * maxPosition < 1 then 1 / n else maxPosition

variable {w : Fin n → K} {M ε : K}

theorem normalizeWeights_apply (hsum : 0 < ∑ i, w i) (i : Fin n) :
    normalizeWeights w i = w i / ∑ j, w j := by
  rw [normalizeWeights, if_pos hsum]

variable [IsStrictOrderedRing K]

theorem tolerance_eq : (1e-10 : K) = 1 / 10 ^ 10 := by norm_num

theorem effectiveMax_of_le (hn : 2 ≤ n) (h : 1 / n ≤ M) : effectiveMax n M = M := by
  have hpos : (0 : K) < n := Nat.cast_pos.2 (by omega)
  exact if_neg (not_lt.2 ((div_le_iff₀' hpos).1 h))

theorem defaultWeights_mem (hn : 2 ≤ n) :
    (defaultWeights n : Fin n → K) ∈ stdSimplex K (Fin n) := by
  have : Nonempty (Fin n) := ⟨⟨0, by omega⟩⟩
  have h := uniform_mem_stdSimplex (ι := Fin n) (K := K)
  rwa [Fintype.card_fin] at h

theorem cappedShares {places : List (Fin n)} (hnodup : places.Nodup) (hne : places ≠ [])
    (hM : 0 < M) :
    scatter places (fun _ ↦ M / (places.length * M)) 0 ∈ stdSimplex K (Fin n) ∧
      ∀ c : K, 0 < c → ((∀ i, scatter places (fun _ ↦ M / (places.length * M)) 0 i ≤ M / c) ↔
        c ≤ places.length * M) := by
  have hlength : (0 : K) < places.length := Nat.cast_pos.2 (List.length_pos_iff.2 hne)
  have htotal : 0 < places.length * M := mul_pos hlength hM
  refine ⟨scatter_const_mem_stdSimplex hnodup (div_pos hM htotal).le ?_,
    fun c hc ↦ ⟨fun h ↦ ?_, ?_⟩⟩
  · rw [← mul_div_assoc, div_self htotal.ne']
  · have hfirst := h (places.get ⟨0, List.length_pos_iff.2 hne⟩)
    rw [scatter_get hnodup, div_le_div_iff_of_pos_left hM htotal hc] at hfirst
    exact hfirst
  · intro h i
    refine scatter_induct hnodup (P := (· ≤ M / c)) (fun _ ↦ ?_) fun _ ↦ (div_pos hM hc).le
    exact div_le_div_of_nonneg_left hM.le hc h

theorem normalizeWeights_mem (h : ∀ i, 0 ≤ w i) (hsum : 0 < ∑ i, w i) :
    normalizeWeights w ∈ stdSimplex K (Fin n) := by
  rw [normalizeWeights, if_pos hsum]
  exact div_sum_mem_stdSimplex h hsum

theorem normalizeWeights_of_sum_one (hsum : ∑ i, w i = 1) : normalizeWeights w = w := by
  funext i
  rw [normalizeWeights_apply (hsum ▸ one_pos), hsum, div_one]

/-- Weights that sum to one and exceed the cap by at most `ε` each are put below it, up to what the
normalisation then adds again. -/
theorem clampAndNormalize_box (hM : 0 ≤ M) (hε : 0 ≤ ε) (hn : n * ε < 1) (hsum : ∑ i, w i = 1)
    (h : ∀ i, w i ≤ M + ε) :
    clampAndNormalize w M ∈ stdSimplex K (Fin n) ∧
      ∀ i, clampAndNormalize w M i ≤ M / (1 - n * ε) := by
  have hroom : 0 < 1 - n * ε := sub_pos.2 hn
  have hle := sum_sub_le_sum_clamp hε h
  rw [hsum, Fintype.card_fin] at hle
  have hpos := hroom.trans_le hle
  refine ⟨normalizeWeights_mem (fun i ↦ le_max_left _ _) hpos, fun i ↦ ?_⟩
  rw [clampAndNormalize, normalizeWeights_apply hpos]
  exact div_le_div₀ hM (max_le hM (min_le_right _ _)) hroom hle

end Zaciraci.Portfolio
