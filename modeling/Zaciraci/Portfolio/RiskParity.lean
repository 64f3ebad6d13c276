import Mathlib.Analysis.Real.Sqrt
import Mathlib.LinearAlgebra.Matrix.Notation
import Zaciraci.Lib.Loop
import Zaciraci.Portfolio.Weights

namespace Zaciraci.Portfolio

open Lib Matrix

section Model

variable {K : Type} [Field K] [LinearOrder K] {m n : ℕ}

def maxRiskParityIterations : ℕ := 50

def riskParityConvergenceTolerance : K := 1e-6

def pinnedRcReleaseFactor : K := 1.5

section Parity

variable (sqrt : K → K) (cov : Matrix (Fin m) (Fin m) K)

/-- Each weight is moved towards an equal contribution to the risk, by a factor of two at most. -/
def adjustWeights (w : Fin m → K) : Fin m → K :=
  let portVol := sqrt (w ⬝ᵥ cov *ᵥ w)
  let targetRc := portVol / m
  fun i ↦
    if 0 < (cov *ᵥ w) i then
      let rc := w i * (cov *ᵥ w) i / portVol
      if 0 < rc then w i * max 0.5 (min (targetRc / rc) 2) else w i
    else w i

def scaleTo (budget : K) (w : Fin m → K) : Fin m → K :=
  if 0 < ∑ i, w i then fun i ↦ w i * (budget / ∑ j, w j) else w

def maxChange (w prev : Fin m → K) : K :=
  (List.ofFn fun i ↦ |w i - prev i|).foldl max 0

def riskParityRound (budget : K) (w : Fin m → K) : Round (Fin m → K) (Fin m → K) :=
  if w ⬝ᵥ cov *ᵥ w ≤ 0 then .leave w
  else
    let w' := scaleTo budget (adjustWeights sqrt cov w)
    if maxChange w' w < riskParityConvergenceTolerance then .leave w' else .again w'

def riskParity (budget : K) (w : Fin m → K) : Fin m → K :=
  loop (riskParityRound sqrt cov budget) id maxRiskParityIterations w

/-- The rounds of `box_risk_parity` with the whole portfolio as budget. -/
def applyRiskParity (weights : Fin m → K) : Fin m → K :=
  if m = 0 then weights else riskParity sqrt cov 1 weights

end Parity

section Round

variable (sqrt : K → K) (cov : Matrix (Fin n) (Fin n) K) (M : K) (pinned : Fin n → Bool)

def unpinned : List (Fin n) := (List.finRange n).filter (!pinned ·)

def pinnedCount : ℕ := n - (unpinned pinned).length

def budgetUnpinned : K := 1 - pinnedCount pinned * M

def unpinnedWeights : Fin (unpinned pinned).length → K :=
  riskParity sqrt (fun i j ↦ cov ((unpinned pinned).get i) ((unpinned pinned).get j))
    (budgetUnpinned M pinned) fun _ ↦ budgetUnpinned M pinned / (unpinned pinned).length

def withPinned (wFree : Fin (unpinned pinned).length → K) (w : Fin n → K) : Fin n → K :=
  fun i ↦ if pinned i then M else scatter (unpinned pinned) wFree w i

def overContributing (w : Fin n → K) (i : Fin n) : Bool :=
  let pvol := sqrt (w ⬝ᵥ cov *ᵥ w)
  pinned i && decide (pvol / n * pinnedRcReleaseFactor < w i * (cov *ᵥ w) i / pvol)

def toRelease (w : Fin n → K) : Option (Fin n) :=
  if 0 < w ⬝ᵥ cov *ᵥ w then (List.finRange n).find? (overContributing sqrt cov pinned w) else none

def boxRiskParityRound : Round (Fin n → K) (Fin n → Bool) :=
  let free := unpinned pinned
  let count := pinnedCount pinned
  if free = [] then .leave fun _ ↦ M / (count * M)
  else if budgetUnpinned M pinned ≤ 0 then .leave fun i ↦ if pinned i then M / (count * M) else 0
  else
    let wFree := unpinnedWeights sqrt cov M pinned
    let toPin := (List.finRange free.length).filter (M + 1e-10 < wFree ·)
    if toPin ≠ [] then .again fun i ↦ pinned i || decide (i ∈ toPin.map free.get)
    else
      match toRelease sqrt cov pinned (withPinned M pinned wFree 0) with
      | some i => .again (Function.update pinned i false)
      | none =>
        let weights := withPinned M pinned wFree (defaultWeights n)
        .leave (clampAndNormalize (normalizeWeights weights) M)

end Round

def boxRiskParity (sqrt : K → K) (cov : Matrix (Fin n) (Fin n) K) (maxPosition : K) : Fin n → K :=
  if n = 0 then 0
  else if n = 1 then 1
  else if 1 ≤ effectiveMax n maxPosition then applyRiskParity sqrt cov (defaultWeights n)
  else
    loop (boxRiskParityRound sqrt cov (effectiveMax n maxPosition)) (fun _ ↦ defaultWeights n)
      (2 * n) fun _ ↦ false

end Model

section Parity

variable {K : Type} [Field K] [LinearOrder K] [IsStrictOrderedRing K] {m : ℕ} {sqrt : K → K}
  {cov : Matrix (Fin m) (Fin m) K} {w : Fin m → K} {budget : K}

theorem adjustWeights_pos (h : ∀ i, 0 < w i) (i : Fin m) : 0 < adjustWeights sqrt cov w i := by
  unfold adjustWeights
  dsimp only
  split_ifs
  · exact mul_pos (h i) (lt_max_of_lt_left (by norm_num))
  · exact h i
  · exact h i

structure Spends (budget : K) (w : Fin m → K) : Prop where
  pos : ∀ i, 0 < w i
  sum_eq : ∑ i, w i = budget

theorem scaleTo_spends [Nonempty (Fin m)] (hbudget : 0 < budget) (h : ∀ i, 0 < w i) :
    Spends budget (scaleTo budget w) := by
  have hsum : 0 < ∑ i, w i := Finset.sum_pos (fun i _ ↦ h i) Finset.univ_nonempty
  rw [scaleTo, if_pos hsum]
  refine ⟨fun i ↦ mul_pos (h i) (div_pos hbudget hsum), ?_⟩
  rw [← Finset.sum_mul, mul_div_cancel₀ _ hsum.ne']

theorem riskParity_spends [Nonempty (Fin m)] (hbudget : 0 < budget) (h : Spends budget w) :
    Spends budget (riskParity sqrt cov budget w) := by
  have hround {w : Fin m → K} (hw : Spends budget w) :
      Spends budget (scaleTo budget (adjustWeights sqrt cov w)) :=
    scaleTo_spends hbudget (adjustWeights_pos hw.pos)
  refine loop_induct (I := Spends budget) (P := Spends budget) h ?_ ?_ fun _ hw ↦ hw
  · intro w a hw hleave
    unfold riskParityRound at hleave
    dsimp only at hleave
    split_ifs at hleave
    · cases hleave
      exact hw
    · cases hleave
      exact hround hw
  · intro w w' hw hagain
    unfold riskParityRound at hagain
    dsimp only at hagain
    split_ifs at hagain
    cases hagain
    exact hround hw

end Parity

section Rounds

variable {K : Type} {n : ℕ} {sqrt : K → K} {cov : Matrix (Fin n) (Fin n) K} {M : K}
  {pinned : Fin n → Bool}

theorem unpinned_nodup (pinned : Fin n → Bool) : (unpinned pinned).Nodup :=
  (List.nodup_finRange n).filter _

theorem mem_unpinned {i : Fin n} : i ∈ unpinned pinned ↔ pinned i = false := by
  simp [unpinned]

theorem pinnedCount_eq (pinned : Fin n → Bool) :
    pinnedCount pinned = ((List.finRange n).filter pinned).length := by
  have h := List.length_eq_length_filter_add (l := List.finRange n) pinned
  rw [List.length_finRange] at h
  rw [pinnedCount, unpinned]
  omega

theorem withPinned_eq (wFree : Fin (unpinned pinned).length → K) (w : Fin n → K) :
    withPinned M pinned wFree w = scatter (unpinned pinned) wFree fun _ ↦ M := by
  funext i
  rw [withPinned]
  cases hi : pinned i with
  | true =>
    have hnot : i ∉ unpinned pinned := by simp [mem_unpinned, hi]
    rw [if_pos rfl, scatter_of_notMem _ _ hnot]
  | false =>
    obtain ⟨j, rfl⟩ := List.mem_iff_get.1 (mem_unpinned.2 hi)
    rw [if_neg (by decide), scatter_get (unpinned_nodup _), scatter_get (unpinned_nodup _)]

variable [Field K]

theorem sum_withPinned (wFree : Fin (unpinned pinned).length → K) (w : Fin n → K) :
    ∑ i, withPinned M pinned wFree w i = ∑ i, wFree i + pinnedCount pinned * M := by
  have hcompl : (Finset.univ.filter fun i ↦ i ∉ unpinned pinned) = (unpinned pinned).toFinsetᶜ := by
    ext i
    simp
  rw [withPinned_eq, sum_scatter (unpinned_nodup _), Finset.sum_const, hcompl, Finset.card_compl,
    List.toFinset_card_of_nodup (unpinned_nodup _), Fintype.card_fin, nsmul_eq_mul, pinnedCount]

theorem pinnedShares_eq (x : K) :
    (fun i ↦ if pinned i then x else 0) =
      scatter ((List.finRange n).filter pinned) (fun _ ↦ x) 0 := by
  funext i
  cases hi : pinned i with
  | true =>
    have hmem : i ∈ (List.finRange n).filter pinned := by simp [hi]
    obtain ⟨j, rfl⟩ := List.mem_iff_get.1 hmem
    rw [if_pos rfl, scatter_get ((List.nodup_finRange n).filter _)]
  | false =>
    have hnot : i ∉ (List.finRange n).filter pinned := by simp [hi]
    rw [if_neg (by decide), scatter_of_notMem _ _ hnot]
    rfl

variable [LinearOrder K] [IsStrictOrderedRing K]

theorem unpinnedWeights_spends (hfree : unpinned pinned ≠ [])
    (hbudget : 0 < budgetUnpinned M pinned) :
    Spends (budgetUnpinned M pinned) (unpinnedWeights sqrt cov M pinned) := by
  have hlength := List.length_pos_iff.2 hfree
  have : Nonempty (Fin (unpinned pinned).length) := ⟨⟨0, hlength⟩⟩
  have hcast : (0 : K) < (unpinned pinned).length := Nat.cast_pos.2 hlength
  refine riskParity_spends hbudget ⟨fun _ ↦ div_pos hbudget hcast, ?_⟩
  rw [Finset.sum_const, Finset.card_univ, Fintype.card_fin, nsmul_eq_mul,
    mul_div_cancel₀ _ hcast.ne']

theorem parityRoom_pos (hn : n < 10 ^ 9) : (0 : K) < 1 - n / 10 ^ 10 := by
  have hcast : (n : K) < 10 ^ 9 := by exact_mod_cast hn
  linarith

theorem le_parityCap (hn : n < 10 ^ 9) (hM : 0 ≤ M) : M ≤ M / (1 - n / 10 ^ 10) :=
  le_div_self hM (parityRoom_pos hn) (sub_le_self _ (by positivity))

theorem pinned_converged_box (hn : n < 10 ^ 9) (hM : 0 ≤ M)
    {wFree : Fin (unpinned pinned).length → K} (hspends : Spends (budgetUnpinned M pinned) wFree)
    (hle : ∀ i, wFree i ≤ M + 1 / 10 ^ 10) (w : Fin n → K) :
    clampAndNormalize (normalizeWeights (withPinned M pinned wFree w)) M ∈ stdSimplex K (Fin n) ∧
      ∀ i, clampAndNormalize (normalizeWeights (withPinned M pinned wFree w)) M i ≤
        M / (1 - n / 10 ^ 10) := by
  have hone : ∑ i, withPinned M pinned wFree w i = 1 := by
    rw [sum_withPinned, hspends.sum_eq, budgetUnpinned, sub_add_cancel]
  have hroom := parityRoom_pos (K := K) hn
  rw [normalizeWeights_of_sum_one hone]
  rw [← mul_one_div (n : K)] at hroom ⊢
  refine clampAndNormalize_box hM (by positivity) (sub_pos.1 hroom) hone fun i ↦ ?_
  rw [withPinned_eq]
  refine scatter_induct (unpinned_nodup _) (P := (· ≤ _)) hle fun _ ↦ ?_
  exact le_add_of_nonneg_right (by positivity)

theorem boxRiskParityRound_leave {w : Fin n → K} (hn : 2 ≤ n) (hn' : n < 10 ^ 9) (hM : 1 / n ≤ M)
    (h : boxRiskParityRound sqrt cov M pinned = .leave w) :
    w ∈ stdSimplex K (Fin n) ∧ ∀ i, w i ≤ M / (1 - n / 10 ^ 10) := by
  have hMpos : 0 < M := lt_of_lt_of_le (by positivity) hM
  unfold boxRiskParityRound at h
  dsimp only at h
  split_ifs at h with hfree hbudget hover
  · cases h
    have hcount : pinnedCount pinned = n := by
      rw [pinnedCount, hfree, List.length_nil, Nat.sub_zero]
    have hshare : (fun _ ↦ M / (pinnedCount pinned * M) : Fin n → K) = defaultWeights n := by
      funext i
      rw [hcount, defaultWeights, div_mul_cancel_right₀ hMpos.ne', one_div]
    rw [hshare]
    exact ⟨defaultWeights_mem hn, fun _ ↦ hM.trans (le_parityCap hn' hMpos.le)⟩
  · cases h
    rw [budgetUnpinned, sub_nonpos, pinnedCount_eq] at hbudget
    have hne : (List.finRange n).filter pinned ≠ [] := by
      intro hnil
      rw [hnil, List.length_nil, Nat.cast_zero, zero_mul] at hbudget
      exact absurd hbudget one_pos.not_ge
    obtain ⟨hmem, hcap⟩ := cappedShares ((List.nodup_finRange n).filter pinned) hne hMpos
    rw [pinnedShares_eq, pinnedCount_eq]
    refine ⟨hmem, (hcap _ (parityRoom_pos hn')).2 ?_⟩
    exact (sub_le_self _ (by positivity)).trans hbudget
  · split at h
    · cases h
    cases h
    refine pinned_converged_box hn' hMpos.le (unpinnedWeights_spends hfree (not_le.1 hbudget)) ?_ _
    rw [← tolerance_eq]
    simpa [List.filter_eq_nil_iff] using hover

/-- Whatever the matrix is and however the rounds end, the weights are those of a portfolio and keep
to the cap, up to what the last normalisation adds. -/
theorem boxRiskParity_box (sqrt : K → K) (hn : 2 ≤ n) (hn' : n < 10 ^ 9)
    (cov : Matrix (Fin n) (Fin n) K) (hM : 1 / n ≤ M) (hM' : M < 1) :
    boxRiskParity sqrt cov M ∈ stdSimplex K (Fin n) ∧
      ∀ i, boxRiskParity sqrt cov M i ≤ M / (1 - n / 10 ^ 10) := by
  have hMnonneg : 0 ≤ M := le_trans (by positivity) hM
  rw [boxRiskParity, if_neg (by omega), if_neg (by omega), effectiveMax_of_le hn hM,
    if_neg hM'.not_ge]
  refine loop_induct (I := fun _ ↦ True) (P := fun w ↦ w ∈ stdSimplex K (Fin n) ∧
    ∀ i, w i ≤ M / (1 - n / 10 ^ 10)) trivial ?_ (fun _ _ _ _ ↦ trivial) fun _ _ ↦ ?_
  · intro pinned w _ hleave
    exact boxRiskParityRound_leave hn hn' hM hleave
  · exact ⟨defaultWeights_mem hn, fun _ ↦ hM.trans (le_parityCap hn' hMnonneg)⟩

end Rounds

theorem boxRiskParity_box_threeAssets :
    boxRiskParity Real.sqrt !![1, 2, -1; 0, 3, 1; 5, -2, 0] (1 / 2) ∈ stdSimplex ℝ (Fin 3) ∧
      ∀ i, boxRiskParity Real.sqrt !![1, 2, -1; 0, 3, 1; 5, -2, 0] (1 / 2) i ≤
        1 / 2 / (1 - (3 : ℕ) / 10 ^ 10) :=
  boxRiskParity_box Real.sqrt (by decide) (by decide) _ (by norm_num) (by norm_num)

end Zaciraci.Portfolio
