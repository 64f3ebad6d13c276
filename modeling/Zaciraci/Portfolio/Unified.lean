import Mathlib.Data.List.Sort
import Zaciraci.Portfolio.Exhaustive

namespace Zaciraci.Portfolio

open Lib

section Model

variable {K : Type} [Field K] [LinearOrder K] {n : ℕ}

def pruneKeepPer : ℕ := 12

def maxPhase3Candidates : ℕ := 15

def liquidityPenaltyLambda : K := 0.01

def adjustReturnsForLiquidity (expectedReturns liquidityScores : Fin n → K) : Fin n → K :=
  fun i ↦ expectedReturns i - liquidityPenaltyLambda * (1 - max 0 (min (liquidityScores i) 1))

/-- The heaviest come first, and equal ones stay in their order. -/
def rankedBy (w : Fin n → K) (indices : List (Fin n)) : List (Fin n) :=
  indices.insertionSort fun i j ↦ w j ≤ w i

def activeSet (wSharpe wRp : Fin n → K) : List (Fin n) :=
  let keep := min pruneKeepPer n
  let sharpeTop := (rankedBy wSharpe (List.finRange n)).take keep
  let rpTop := (rankedBy wRp (List.finRange n)).take keep
  (List.finRange n).filter fun i ↦ sharpeTop.contains i || rpTop.contains i

/-- The tokens whose subsets are enumerated. Too many of them are cut down by their blend. -/
def phase3Candidates (alphas wSharpe wRp : Fin n → K) (maxHoldings : ℕ) : List (Fin n) :=
  let active := activeSet wSharpe wRp
  let active := if active = [] then List.finRange n else active
  if maxPhase3Candidates < active.length ∧ maxHoldings < active.length then
    let scored := rankedBy (fun i ↦ alphas i * wSharpe i + (1 - alphas i) * wRp i) active
    (scored.take maxPhase3Candidates).insertionSort (· ≤ ·)
  else active

variable (lib : Decompositions K) (sqrt : K → K)

def unifiedCandidates (params : SubsetOptParams K n) (maxHoldings : ℕ) : List (Fin n) :=
  phase3Candidates params.alphas
    (boxMaximizeSharpe lib params.expectedReturns params.covarianceMatrix params.maxPosition)
    (boxRiskParity sqrt params.covarianceMatrix params.maxPosition) maxHoldings

def unifiedOptimize (expectedReturns : Fin n → K) (cov : Matrix (Fin n) (Fin n) K)
    (liquidityScores : Fin n → K) (maxPosition : K) (maxHoldings : ℕ) (minPositionSize : K)
    (alphas : Fin n → K) : Fin n → K :=
  if n = 0 then 0
  else if n = 1 then 1
  else
    let params : SubsetOptParams K n :=
      ⟨adjustReturnsForLiquidity expectedReturns liquidityScores, cov, maxPosition, alphas⟩
    normalizeWeights (exhaustiveOptimize lib sqrt params
      (unifiedCandidates lib sqrt params maxHoldings) maxHoldings minPositionSize)

end Model

section Ranking

variable {K : Type} [LinearOrder K] {n : ℕ} {w : Fin n → K} {indices : List (Fin n)}

theorem perm_rankedBy (w : Fin n → K) (indices : List (Fin n)) :
    (rankedBy w indices).Perm indices :=
  List.perm_insertionSort _ indices

theorem mem_take_rankedBy {i : Fin n} (k : ℕ) (h : i ∈ (rankedBy w indices).take k) : i ∈ indices :=
  (perm_rankedBy w indices).mem_iff.1 (List.mem_of_mem_take h)

/-- The tokens that are among the first twelve by a portfolio's weights. -/
def Heaviest (w : Fin n → K) (i : Fin n) : Prop :=
  i ∈ (rankedBy w (List.finRange n)).take (min pruneKeepPer n)

variable {ws wr : Fin n → K}

theorem mem_activeSet {i : Fin n} : i ∈ activeSet ws wr ↔ Heaviest ws i ∨ Heaviest wr i := by
  simp [activeSet, Heaviest]

theorem heaviest_of_le (hn : n ≤ pruneKeepPer) (i : Fin n) : Heaviest w i := by
  rw [Heaviest, min_eq_right hn, List.take_of_length_le, (perm_rankedBy _ _).mem_iff]
  · exact List.mem_finRange i
  · rw [(perm_rankedBy _ _).length_eq, List.length_finRange]

theorem activeSet_ne (hn : n ≠ 0) : activeSet ws wr ≠ [] := by
  have hpos : 0 < ((rankedBy ws (List.finRange n)).take (min pruneKeepPer n)).length := by
    rw [List.length_take, (perm_rankedBy _ _).length_eq, List.length_finRange, pruneKeepPer]
    omega
  obtain ⟨i, hi⟩ := List.exists_mem_of_length_pos hpos
  exact List.ne_nil_of_mem (mem_activeSet.2 (.inl hi))

theorem activeSet_eq (hn : n ≤ pruneKeepPer) : activeSet ws wr = List.finRange n := by
  refine List.filter_eq_self.2 fun i hi ↦ ?_
  exact (List.mem_filter.1 (mem_activeSet.2 (.inl (heaviest_of_le hn i)))).2

variable [Field K] {alphas : Fin n → K} {maxHoldings : ℕ}

/-- The tokens that are enumerated are few, each once, and among the heaviest. -/
structure IsPruned (ws wr : Fin n → K) (maxHoldings : ℕ) (candidates : List (Fin n)) : Prop where
  nodup : candidates.Nodup
  ne : candidates ≠ []
  heaviest : ∀ i ∈ candidates, Heaviest ws i ∨ Heaviest wr i
  length_le : candidates.length ≤ max maxPhase3Candidates maxHoldings
  eq_of_le : n ≤ pruneKeepPer → candidates = List.finRange n

theorem phase3Candidates_isPruned (hn : n ≠ 0) :
    IsPruned ws wr maxHoldings (phase3Candidates alphas ws wr maxHoldings) := by
  have hnodup : (activeSet ws wr).Nodup := (List.nodup_finRange n).filter _
  rw [phase3Candidates]
  dsimp only
  rw [if_neg (activeSet_ne hn)]
  set score := fun i ↦ alphas i * ws i + (1 - alphas i) * wr i
  split_ifs with hmany
  · have hperm := List.perm_insertionSort (· ≤ ·)
      ((rankedBy score (activeSet ws wr)).take maxPhase3Candidates)
    have hlength : ((rankedBy score (activeSet ws wr)).take maxPhase3Candidates).length =
        maxPhase3Candidates := by
      rw [List.length_take, (perm_rankedBy _ _).length_eq]
      exact min_eq_left hmany.1.le
    refine ⟨hperm.nodup_iff.2 ?_, ?_, fun i hi ↦ ?_, ?_, fun hfew ↦ ?_⟩
    · exact ((perm_rankedBy _ _).nodup_iff.2 hnodup).sublist (List.take_sublist _ _)
    · refine List.ne_nil_of_length_pos ?_
      rw [hperm.length_eq, hlength]
      decide
    · exact mem_activeSet.1 (mem_take_rankedBy _ (hperm.mem_iff.1 hi))
    · rw [hperm.length_eq, hlength]
      exact le_max_left _ _
    · have hle := hmany.1
      rw [activeSet_eq hfew, List.length_finRange] at hle
      exact absurd (hle.trans_le hfew) (by decide)
  · refine ⟨hnodup, activeSet_ne hn, fun i ↦ mem_activeSet.1, ?_, activeSet_eq⟩
    rw [le_max_iff]
    by_contra! hboth
    exact hmany hboth

end Ranking

section Optimizes

variable {K : Type} [Field K] [LinearOrder K] [IsStrictOrderedRing K] {n : ℕ} {M : K}

theorem effectiveMax_ge (hn : 2 ≤ n) : 1 / n ≤ effectiveMax n M := by
  have hpos : (0 : K) < n := Nat.cast_pos.2 (by omega)
  rw [effectiveMax]
  split_ifs with hsmall
  · exact le_rfl
  · exact (div_le_iff₀' hpos).2 (not_lt.1 hsmall)

theorem effectiveMax_lt_one (hn : 2 ≤ n) (hM : M < 1) : effectiveMax n M < 1 := by
  have hcast : (1 : K) < n := by exact_mod_cast hn
  rw [effectiveMax]
  split_ifs
  · rwa [div_lt_one (one_pos.trans hcast)]
  · exact hM

theorem boxMaximizeSharpe_mem (lib : Decompositions K) (hn : n ≠ 0) (hn' : n < 10 ^ 8) (hM : M < 1)
    (expectedReturns : Fin n → K) (cov : Matrix (Fin n) (Fin n) K) :
    boxMaximizeSharpe lib expectedReturns cov M ∈ stdSimplex K (Fin n) := by
  rw [boxMaximizeSharpe, if_neg hn]
  split_ifs with hone hfree hsame
  · subst hone
    exact ⟨fun _ ↦ zero_le_one, by simp⟩
  · exact absurd hfree (effectiveMax_lt_one (by omega) hM).not_ge
  · exact defaultWeights_mem (by omega)
  · refine loop_induct (I := fun _ ↦ True) (P := (· ∈ stdSimplex K (Fin n))) trivial ?_
      (fun _ _ _ _ ↦ trivial) fun _ _ ↦ defaultWeights_mem (by omega)
    intro state w _ hleave
    exact (sharpeRound_leave (by omega) hn' (effectiveMax_ge (by omega)) hleave).1

theorem boxRiskParity_mem (sqrt : K → K) (hn : n ≠ 0) (hn' : n < 10 ^ 8) (hM : M < 1)
    (cov : Matrix (Fin n) (Fin n) K) : boxRiskParity sqrt cov M ∈ stdSimplex K (Fin n) := by
  rw [boxRiskParity, if_neg hn]
  split_ifs with hone hfree
  · subst hone
    exact ⟨fun _ ↦ zero_le_one, by simp⟩
  · exact absurd hfree (effectiveMax_lt_one (by omega) hM).not_ge
  · refine loop_induct (I := fun _ ↦ True) (P := (· ∈ stdSimplex K (Fin n))) trivial ?_
      (fun _ _ _ _ ↦ trivial) fun _ _ ↦ defaultWeights_mem (by omega)
    intro pinned w _ hleave
    exact (boxRiskParityRound_leave (by omega) (by omega) (effectiveMax_ge (by omega)) hleave).1

theorem reoptimize_optimizes (lib : Decompositions K) (sqrt : K → K) (hn : n < 10 ^ 8)
    {params : SubsetOptParams K n} (hM : params.maxPosition < 1)
    (hα : ∀ i, params.alphas i ∈ Set.Icc (1 / 2) (9 / 10 : K)) :
    Optimizes (params.reoptimize lib sqrt) := by
  intro subset hnodup hne
  have hlength : subset.length ≤ n := by
    simpa using hnodup.length_le_card
  have hpos : subset.length ≠ 0 := by
    simpa using hne
  have hmem : blend (fun i ↦ params.alphas (subset.get i)) _ _ ∈ stdSimplex K _ := blend_mem
    (boxMaximizeSharpe_mem lib hpos (hlength.trans_lt hn) hM
      (extractSubPortfolio params.expectedReturns params.covarianceMatrix subset).1
      (extractSubPortfolio params.expectedReturns params.covarianceMatrix subset).2)
    (boxRiskParity_mem sqrt hpos (hlength.trans_lt hn) hM
      (extractSubPortfolio params.expectedReturns params.covarianceMatrix subset).2)
    fun i ↦ hα _
  refine ⟨⟨?_, ?_⟩, fun i hi ↦ scatter_of_notMem _ _ hi⟩
  · intro i
    exact scatter_induct hnodup (P := (0 ≤ ·)) hmem.1 fun _ ↦ le_rfl
  · rw [SubsetOptParams.reoptimize, blendAndExpand, expandBlend, sum_scatter hnodup, hmem.2]
    simp

end Optimizes

section Search

variable {K : Type} [Field K] [LinearOrder K] [IsStrictOrderedRing K] {n : ℕ}
  {reoptimize : List (Fin n) → Fin n → K} {score : (Fin n → K) → K} {m : K}
  {subset active : List (Fin n)} {maxHoldings : ℕ}

structure IsPortfolio (m : K) (subset : List (Fin n)) (w : Fin n → K) : Prop where
  mem : w ∈ stdSimplex K (Fin n)
  held : HeldWithin subset w
  floor : ∀ i, w i ≠ 0 → m ≤ w i

theorem IsPortfolio.exists_pos {w : Fin n → K} (h : IsPortfolio m subset w) : ∃ i, 0 < w i := by
  by_contra! hall
  have hsum : ∑ i, w i ≤ 0 := Finset.sum_nonpos fun i _ ↦ hall i
  rw [h.mem.2] at hsum
  exact one_pos.not_ge hsum

theorem portfolio_isPortfolio (hopt : Optimizes reoptimize) (hnodup : subset.Nodup)
    (hne : subset ≠ []) (hm : subset.length * m ≤ 1) :
    IsPortfolio m subset (portfolio reoptimize m subset) := by
  have hcached := cachedReoptimize_spec (transparent_empty reoptimize) subset
  have hstart : Filters reoptimize subset
      ⟨(cachedReoptimize reoptimize (fun _ ↦ none) subset).1, subset,
        (cachedReoptimize reoptimize (fun _ ↦ none) subset).2⟩ :=
    ⟨hcached.1, .refl _, hcached.2⟩
  obtain ⟨t, r, hvisits, ⟨hfilters, htne⟩, hleave⟩ := exists_filterRound_leave (m := m) hstart hne
  have hportfolio : portfolio reoptimize m subset = r.weights :=
    congrArg Filtering.weights (hvisits.loop_eq hleave)
  obtain ⟨rfl, hall | hnone⟩ := filterRound_leave hleave
  · obtain ⟨hmem, hzero⟩ := hopt _ (hfilters.sublist.nodup hnodup) htne
    rw [← hfilters.weights_eq, ← hportfolio] at hmem hzero
    rw [← hportfolio] at hall
    have hheld : HeldWithin r.currentIndices (portfolio reoptimize m subset) := by
      intro i hi
      by_contra hmem
      exact hi (hzero i hmem)
    exact ⟨hmem, hheld.of_sublist hfilters.sublist, fun i hi ↦ hall i (hheld i hi)⟩
  · have hlength : (r.currentIndices.length : K) * m ≤ 1 := by
      rcases le_total 0 m with hnonneg | hneg
      · refine le_trans ?_ hm
        gcongr
        exact hfilters.sublist.length_le
      · exact (mul_nonpos_of_nonneg_of_nonpos (Nat.cast_nonneg _) hneg).trans zero_le_one
    obtain ⟨i, hi, hle⟩ := exists_le_of_optimizes hopt (hfilters.sublist.nodup hnodup) htne hlength
    rw [← hfilters.weights_eq] at hle
    exact absurd hle (hnone i hi).not_ge

/-- The subsets that the search takes from the tokens: those of the largest size that is allowed. -/
def IsChoice (active : List (Fin n)) (maxHoldings : ℕ) (subset : List (Fin n)) : Prop :=
  subset.Sublist active ∧ subset.length = min maxHoldings active.length

theorem IsChoice.isPortfolio (hopt : Optimizes reoptimize) (hnodup : active.Nodup)
    (hne : active ≠ []) (hpos : 1 ≤ maxHoldings) (hm : maxHoldings * m ≤ 1)
    (h : IsChoice active maxHoldings subset) :
    IsPortfolio m subset (portfolio reoptimize m subset) := by
  have hactive := List.length_pos_iff.2 hne
  have hlength := h.2
  refine portfolio_isPortfolio hopt (h.1.nodup hnodup) ?_ ?_
  · refine List.ne_nil_of_length_pos ?_
    omega
  · rcases le_total 0 m with hnonneg | hneg
    · refine le_trans ?_ hm
      gcongr
      omega
    · exact (mul_nonpos_of_nonneg_of_nonpos (Nat.cast_nonneg _) hneg).trans zero_le_one

variable (score) in
theorem exhaustiveSearch_isChoice (hopt : Optimizes reoptimize) (hnodup : active.Nodup)
    (hne : active ≠ []) (hpos : 1 ≤ maxHoldings) (hm : maxHoldings * m ≤ 1) :
    ∃ subset, IsChoice active maxHoldings subset ∧
      exhaustiveSearch reoptimize score m active maxHoldings = portfolio reoptimize m subset ∧
      ∀ subset', IsChoice active maxHoldings subset' →
        score (portfolio reoptimize m subset') ≤ score (portfolio reoptimize m subset) := by
  have hexists (subset) (h : IsChoice active maxHoldings subset) :
      ∃ i, 0 < portfolio reoptimize m subset i :=
    (h.isPortfolio hopt hnodup hne hpos hm).exists_pos
  rcases Nat.lt_or_ge maxHoldings active.length with hlt | hle
  · have hiff (subset : List (Fin n)) :
        IsChoice active maxHoldings subset ↔ Candidate active maxHoldings subset := by
      rw [IsChoice, min_eq_left hlt.le, Candidate]
    obtain ⟨subset, hcandidate, heq, -, hbest⟩ | ⟨hnone, -⟩ :=
      exhaustiveSearch_cases reoptimize score m hpos hlt
    · refine ⟨subset, (hiff subset).2 hcandidate, heq, fun subset' h ↦ ?_⟩
      exact hbest subset' ((hiff subset').1 h) (hexists subset' h)
    · have hfirst : IsChoice active maxHoldings (active.take maxHoldings) :=
        ⟨List.take_sublist _ _, List.length_take⟩
      obtain ⟨i, hi⟩ := hexists _ hfirst
      exact absurd hi (hnone _ ((hiff _).1 hfirst) i)
  · refine ⟨active, ⟨.refl _, (min_eq_right hle).symm⟩, ?_, fun subset' h ↦ ?_⟩
    · rw [exhaustiveSearch, if_neg hne, if_pos hle]
      rfl
    · rw [h.1.eq_of_length (h.2.trans (min_eq_right hle))]

end Search

section Unified

variable {K : Type} [Field K] [LinearOrder K] {n maxHoldings : ℕ} {m M : K} {alphas : Fin n → K}
  {lib : Decompositions K} {sqrt : K → K}

variable (maxHoldings) in
theorem unifiedCandidates_isPruned (lib : Decompositions K) (sqrt : K → K) (hn : n ≠ 0)
    (params : SubsetOptParams K n) :
    IsPruned
      (boxMaximizeSharpe lib params.expectedReturns params.covarianceMatrix params.maxPosition)
      (boxRiskParity sqrt params.covarianceMatrix params.maxPosition) maxHoldings
      (unifiedCandidates lib sqrt params maxHoldings) :=
  phase3Candidates_isPruned hn

variable [IsStrictOrderedRing K] (expectedReturns liquidityScores : Fin n → K)
  (cov : Matrix (Fin n) (Fin n) K)

variable (lib sqrt) in
theorem unifiedOptimize_isChoice (hn : 2 ≤ n) (hn' : n < 10 ^ 8) (hM : M < 1)
    (hpos : 1 ≤ maxHoldings) (hm : maxHoldings * m ≤ 1)
    (hα : ∀ i, alphas i ∈ Set.Icc (1 / 2) (9 / 10 : K)) :
    let params : SubsetOptParams K n :=
      ⟨adjustReturnsForLiquidity expectedReturns liquidityScores, cov, M, alphas⟩
    let w := unifiedOptimize lib sqrt expectedReturns cov liquidityScores M maxHoldings m alphas
    ∃ subset, IsChoice (unifiedCandidates lib sqrt params maxHoldings) maxHoldings subset ∧
      IsPortfolio m subset w ∧ w = portfolio (params.reoptimize lib sqrt) m subset ∧
      ∀ subset', IsChoice (unifiedCandidates lib sqrt params maxHoldings) maxHoldings subset' →
        compositeScore sqrt params (portfolio (params.reoptimize lib sqrt) m subset') ≤
          compositeScore sqrt params w := by
  intro params
  have hopt : Optimizes (params.reoptimize lib sqrt) := reoptimize_optimizes lib sqrt hn' hM hα
  have hpruned := unifiedCandidates_isPruned maxHoldings lib sqrt
    (by omega : n ≠ 0) params
  obtain ⟨subset, hchoice, heq, hbest⟩ :=
    exhaustiveSearch_isChoice (compositeScore sqrt params) hopt hpruned.nodup hpruned.ne
      hpos hm
  have hportfolio := hchoice.isPortfolio hopt hpruned.nodup hpruned.ne hpos hm
  have hw : unifiedOptimize lib sqrt expectedReturns cov liquidityScores M maxHoldings m alphas =
      portfolio (params.reoptimize lib sqrt) m subset := by
    rw [unifiedOptimize, if_neg (by omega), if_neg (by omega)]
    dsimp only
    rw [exhaustiveOptimize, heq, normalizeWeights_of_sum_one hportfolio.mem.2]
  dsimp only
  rw [hw]
  exact ⟨subset, hchoice, hportfolio, rfl, hbest⟩

theorem unifiedOptimize_heldBy (lib : Decompositions K) (sqrt : K → K) (hn : n ≠ 0)
    (hn' : n < 10 ^ 8) (hM : M < 1) (hpos : 1 ≤ maxHoldings) (hm : maxHoldings * m ≤ 1)
    (hα : ∀ i, alphas i ∈ Set.Icc (1 / 2) (9 / 10 : K)) :
    ∃ subset : List (Fin n), subset.length ≤ maxHoldings ∧
      IsPortfolio m subset
        (unifiedOptimize lib sqrt expectedReturns cov liquidityScores M maxHoldings m alphas) ∧
      ∀ i ∈ subset,
        Heaviest (boxMaximizeSharpe lib
          (adjustReturnsForLiquidity expectedReturns liquidityScores) cov M) i ∨
        Heaviest (boxRiskParity sqrt cov M) i := by
  rcases Nat.lt_or_ge n 2 with hone | htwo
  · obtain rfl : n = 1 := by omega
    have hle : m ≤ 1 := by
      rcases le_total 0 m with hnonneg | hneg
      · exact (le_mul_of_one_le_left hnonneg (by exact_mod_cast hpos)).trans hm
      · exact hneg.trans zero_le_one
    refine ⟨[0], hpos, ?_, fun i _ ↦ .inl (heaviest_of_le (by decide) i)⟩
    rw [unifiedOptimize, if_neg hn, if_pos rfl]
    refine ⟨⟨fun _ ↦ zero_le_one, by simp⟩, fun i _ ↦ ?_, fun _ _ ↦ hle⟩
    exact List.mem_singleton.2 (Subsingleton.elim i 0)
  · obtain ⟨subset, hchoice, hportfolio, -⟩ := unifiedOptimize_isChoice lib sqrt
      expectedReturns liquidityScores cov htwo hn' hM hpos hm hα
    have hlength := hchoice.2
    have hpruned := unifiedCandidates_isPruned maxHoldings lib sqrt hn
      ⟨adjustReturnsForLiquidity expectedReturns liquidityScores, cov, M, alphas⟩
    exact ⟨subset, by omega, hportfolio, fun i hi ↦ hpruned.heaviest i (hchoice.1.subset hi)⟩

/-- Whatever the returns, the covariances and the liquidity are, and even where the linear systems
are not solved: the weights are those of a portfolio of few enough tokens without small positions,
each among the twelve heaviest of the Sharpe portfolio or of the risk parity one. -/
theorem unifiedOptimize_isPortfolio (lib : Decompositions K) (sqrt : K → K) (hn : n ≠ 0)
    (hn' : n < 10 ^ 8) (hM : M < 1) (hpos : 1 ≤ maxHoldings) (hm : maxHoldings * m ≤ 1)
    (hα : ∀ i, alphas i ∈ Set.Icc (1 / 2) (9 / 10 : K)) :
    let w := unifiedOptimize lib sqrt expectedReturns cov liquidityScores M maxHoldings m alphas
    w ∈ stdSimplex K (Fin n) ∧ (Finset.univ.filter (w · ≠ 0)).card ≤ maxHoldings ∧
      ∀ i, w i ≠ 0 → m ≤ w i ∧
        (Heaviest (boxMaximizeSharpe lib
          (adjustReturnsForLiquidity expectedReturns liquidityScores) cov M) i ∨
        Heaviest (boxRiskParity sqrt cov M) i) := by
  obtain ⟨subset, hlength, hportfolio, hheaviest⟩ := unifiedOptimize_heldBy expectedReturns
    liquidityScores cov lib sqrt hn hn' hM hpos hm hα
  refine ⟨hportfolio.mem, hportfolio.held.card_le.trans hlength, fun i hi ↦ ?_⟩
  exact ⟨hportfolio.floor i hi, hheaviest i (hportfolio.held i hi)⟩

/-- The result has the best score of all filtered portfolios of the largest size from the pruned
tokens. Up to twelve tokens nothing is pruned, and no choice of tokens is better. -/
theorem unifiedOptimize_best (lib : Decompositions K) (sqrt : K → K) (hn : 2 ≤ n)
    (hn' : n < 10 ^ 8) (hM : M < 1) (hpos : 1 ≤ maxHoldings) (hm : maxHoldings * m ≤ 1)
    (hα : ∀ i, alphas i ∈ Set.Icc (1 / 2) (9 / 10 : K)) :
    let params : SubsetOptParams K n :=
      ⟨adjustReturnsForLiquidity expectedReturns liquidityScores, cov, M, alphas⟩
    let candidates := unifiedCandidates lib sqrt params maxHoldings
    let w := unifiedOptimize lib sqrt expectedReturns cov liquidityScores M maxHoldings m alphas
    (∃ subset, IsChoice candidates maxHoldings subset ∧
        w = portfolio (params.reoptimize lib sqrt) m subset) ∧
      (∀ subset, IsChoice candidates maxHoldings subset →
        compositeScore sqrt params (portfolio (params.reoptimize lib sqrt) m subset) ≤
          compositeScore sqrt params w) ∧
      candidates.length ≤ max 15 maxHoldings ∧ (n ≤ 12 → candidates = List.finRange n) := by
  obtain ⟨subset, hchoice, -, heq, hbest⟩ := unifiedOptimize_isChoice lib sqrt
    expectedReturns liquidityScores cov hn hn' hM hpos hm hα
  have hpruned := unifiedCandidates_isPruned maxHoldings lib sqrt
    (by omega : n ≠ 0) ⟨adjustReturnsForLiquidity expectedReturns liquidityScores, cov, M, alphas⟩
  exact ⟨⟨subset, hchoice, heq⟩, hbest, hpruned.length_le, hpruned.eq_of_le⟩

end Unified

theorem unifiedOptimize_isPortfolio_threeTokens :
    let w := unifiedOptimize eliminating rationalRoot blendReturns blendCov (fun _ ↦ 1) (3 / 5) 2
      (1 / 20) fun _ ↦ 7 / 10
    w ∈ stdSimplex ℚ (Fin 3) ∧ (Finset.univ.filter (w · ≠ 0)).card ≤ 2 :=
  (unifiedOptimize_isPortfolio blendReturns (fun _ ↦ 1) blendCov eliminating rationalRoot
    (by decide) (by decide) (by norm_num) (by decide) (by norm_num) fun _ ↦ by norm_num).imp_right
    And.left

/-- No two of the three tokens make a better portfolio. -/
theorem unifiedOptimize_best_threeTokens :
    let params : SubsetOptParams ℚ 3 :=
      ⟨adjustReturnsForLiquidity blendReturns fun _ ↦ 1, blendCov, 3 / 5, fun _ ↦ 7 / 10⟩
    let w := unifiedOptimize eliminating rationalRoot blendReturns blendCov (fun _ ↦ 1) (3 / 5) 2
      (1 / 20) fun _ ↦ 7 / 10
    ∀ subset ∈ [[0, 1], [0, 2], [1, 2]],
      compositeScore rationalRoot params
          (portfolio (params.reoptimize eliminating rationalRoot) (1 / 20) subset) ≤
        compositeScore rationalRoot params w := by
  intro params w subset hsubset
  obtain ⟨-, hbest, -, hcandidates⟩ := unifiedOptimize_best blendReturns (fun _ ↦ 1) blendCov
    (m := 1 / 20) (M := 3 / 5) eliminating rationalRoot (by decide) (by decide) (by norm_num)
    (by decide : 1 ≤ 2) (by norm_num)
    fun _ ↦ (by norm_num : (7 / 10 : ℚ) ∈ Set.Icc (1 / 2) (9 / 10))
  rw [hcandidates (by decide)] at hbest
  refine hbest subset ?_
  fin_cases hsubset <;> exact ⟨by decide, by decide⟩

end Zaciraci.Portfolio
