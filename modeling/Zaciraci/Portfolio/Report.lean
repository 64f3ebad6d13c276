import Zaciraci.Portfolio.Covariance
import Zaciraci.Portfolio.Drawdown
import Zaciraci.Portfolio.Unified
import Zaciraci.Trade.Strategy
import Zaciraci.Trade.Target

namespace Zaciraci.Portfolio

open Lib Matrix
open Trade (PricePoint TradingAction WalletInfo needsRebalancing generateRebalanceActions
  weightFromF64)

section Model

def maxPositionSize : ℚ := 0.6

def minPositionSize : ℚ := 0.05

def maxHoldings : ℕ := 6

def minLiquidityScore : ℚ := 0.5

def minMarketCap : BigDecimal := 10000

abbrev TokenInfo := Trade.TokenData ℚ

/-- The data with exact numbers. The history under a token is its own. -/
abbrev PortfolioData := Trade.PortfolioData ℚ

def hardFilterTokens (tokens : List TokenInfo) : List TokenInfo :=
  tokens.filter fun t ↦
    decide (minLiquidityScore ≤ t.liquidityScore.getD 0) && t.marketCap.all (minMarketCap ≤ ·)

def calculateExpectedReturns (predictions : SortedMap TokenAccount BigDecimal) (token : TokenInfo) :
    ℚ :=
  match predictions.get token.symbol with
  | some predictedPrice =>
    let currentPrice := token.currentRate.toPrice
    if currentPrice = 0 ∨ predictedPrice = 0 then 0
    else (predictedPrice - currentPrice) / currentPrice
  | none => 0

def calculateReturnsFromPrices (prices : List PricePoint) : List ℚ :=
  if prices.length < 2 then []
  else
    let sorted := prices.insertionSort fun p q ↦ p.timestamp ≤ q.timestamp
    (sorted.zip sorted.tail).filterMap fun (prev, current) ↦
      if 0 < prev.price then some ((current.price - prev.price) / prev.price) else none

def distinctHistories (seen : List TokenAccount) :
    List (TokenAccount × List PricePoint) → List (TokenAccount × List PricePoint)
  | [] => []
  | history :: histories =>
    if seen.contains history.1 then distinctHistories seen histories
    else history :: distinctHistories (history.1 :: seen) histories

def calculateDailyReturns (histories : List (TokenAccount × List PricePoint)) : List (List ℚ) :=
  (distinctHistories [] histories).map fun history ↦ calculateReturnsFromPrices history.2

variable (sqrt : ℚ → ℚ)

def calculateMarketVolatility (dailyReturns : List (List ℚ)) : ℚ :=
  if dailyReturns = [] then 0
  else
    let deviation (returns : List ℚ) : ℚ :=
      if returns.length < 2 then 0
      else
        let mean := returns.sum / returns.length
        sqrt ((returns.map fun r ↦ (r - mean) ^ 2).sum / (returns.length - 1 : ℕ))
    (dailyReturns.map deviation).sum / dailyReturns.length

def dynamicMaxPosition (avgVolatility : ℚ) : ℚ :=
  maxPositionSize * (1 - 0.3 * volatilityRatio avgVolatility)

def calculateCurrentWeights (wallet : WalletInfo) (token : TokenInfo) : ℚ :=
  match wallet.holdings.get token.symbol with
  | some holding =>
    if wallet.totalValue = 0 then 0
    else BigDecimal.div (holding.value token.currentRate) wallet.totalValue
  | none => 0

def calculateTurnoverRate (oldWeights newWeights : List ℚ) : ℚ :=
  if oldWeights.length ≠ newWeights.length then 1
  else (List.zipWith (fun old new ↦ |old - new|) oldWeights newWeights).sum / 2

def calculateSortinoRatio (returns : List ℚ) (riskFree : ℚ) : ℚ :=
  if returns = [] then 0
  else
    let meanReturn := returns.sum / returns.length
    let downsideVariance :=
      (returns.map fun r ↦ min (r - riskFree) 0 ^ 2).sum / returns.length
    let downsideDeviation := sqrt downsideVariance
    if downsideDeviation = 0 then 0 else (meanReturn - riskFree) / downsideDeviation

def weightMap (tokens : List TokenAccount) (weights : List ℚ) : SortedMap TokenAccount BigDecimal :=
  (((tokens.zip weights).filter fun x ↦ 0 < x.2).map fun x ↦
    (x.1, weightFromF64 x.2)).foldl (fun m e ↦ m.insert e.1 e.2) SortedMap.empty

structure PortfolioMetrics where
  sortinoRatio : ℚ
  maxDrawdown : ℚ
  calmarRatio : ℚ
  turnoverRate : ℚ

structure PortfolioWeights where
  weights : SortedMap TokenAccount BigDecimal
  expectedReturn : ℚ
  expectedVolatility : ℚ
  sharpeRatio : ℚ

structure PortfolioExecutionReport where
  actions : List TradingAction
  optimalWeights : PortfolioWeights
  rebalanceNeeded : Bool
  expectedMetrics : PortfolioMetrics

def PortfolioData.selectedTokens (data : PortfolioData) : List TokenInfo :=
  (hardFilterTokens data.tokens).filter fun t ↦ data.historicalPrices.contains t.symbol

def PortfolioData.dailyReturns (data : PortfolioData) : List (List ℚ) :=
  calculateDailyReturns (data.selectedTokens.filterMap fun t ↦
    (data.historicalPrices.get t.symbol).map (t.symbol, ·))

/-- The returns of the portfolio on the days that all series have. -/
def portfolioDailyReturns {n : ℕ} (weights : Fin n → ℚ) (dailyReturns : Fin n → List ℚ) : List ℚ :=
  let minReturnLen := commonLength dailyReturns
  if 0 < minReturnLen ∧ n ≠ 0 then
    List.ofFn fun day : Fin minReturnLen ↦
      ∑ i, weights i * (aligned minReturnLen (dailyReturns i)).getD day 0
  else []

def metrics (oldWeights newWeights portfolioReturns : List ℚ) : PortfolioMetrics :=
  let maxDrawdown := calculateMaxDrawdown (cumulativeValues portfolioReturns)
  let meanReturn :=
    if portfolioReturns = [] then 0 else portfolioReturns.sum / portfolioReturns.length
  { sortinoRatio := calculateSortinoRatio sqrt portfolioReturns riskFreeRate
    maxDrawdown
    calmarRatio := if 0 < maxDrawdown then meanReturn / maxDrawdown else 0
    turnoverRate := calculateTurnoverRate oldWeights newWeights }

variable (lib : Decompositions ℚ) (eigen : SymmetricEigen ℚ)

section Weights

variable (data : PortfolioData)

def PortfolioData.series (i : Fin data.selectedTokens.length) : List ℚ :=
  data.dailyReturns.getD i []

def PortfolioData.expectedReturns (i : Fin data.selectedTokens.length) : ℚ :=
  calculateExpectedReturns data.predictions (data.selectedTokens.get i)

def PortfolioData.optimalWeights : Fin data.selectedTokens.length → ℚ :=
  let avgVolatility := calculateMarketVolatility sqrt data.dailyReturns
  let alphas := fun i ↦ tokenAlpha (volatilityBlendAlpha avgVolatility)
    (data.predictionConfidences.get (data.selectedTokens.get i).symbol)
  unifiedOptimize lib sqrt data.expectedReturns (calculateCovarianceMatrix eigen data.series)
    (fun i ↦ (data.selectedTokens.get i).liquidityScore.getD 0) (dynamicMaxPosition avgVolatility)
    maxHoldings minPositionSize alphas

end Weights

def executePortfolioOptimization (wallet : WalletInfo) (data : PortfolioData)
    (rebalanceThreshold : ℚ) : PortfolioExecutionReport :=
  if hardFilterTokens data.tokens = [] then
    ⟨[.hold], ⟨SortedMap.empty, 0, 0, 0⟩, false, ⟨0, 0, 0, 0⟩⟩
  else
    let tokens := data.selectedTokens.map (·.symbol)
    let weights := data.optimalWeights sqrt lib eigen
    let optimalWeights := List.ofFn weights
    let currentWeights := data.selectedTokens.map (calculateCurrentWeights wallet)
    let rebalanceNeeded := needsRebalancing currentWeights optimalWeights rebalanceThreshold
    let portfolioReturn := calculatePortfolioReturn weights data.expectedReturns
    let portfolioVol :=
      calculatePortfolioStd sqrt weights (calculateCovarianceMatrix eigen data.series)
    { actions :=
        if rebalanceNeeded then generateRebalanceActions tokens optimalWeights else [.hold]
      optimalWeights :=
        { weights := weightMap tokens optimalWeights
          expectedReturn := portfolioReturn
          expectedVolatility := portfolioVol
          sharpeRatio :=
            if 0 < portfolioVol then (portfolioReturn - riskFreeRate) / portfolioVol else 0 }
      rebalanceNeeded
      expectedMetrics := metrics sqrt currentWeights optimalWeights
        (portfolioDailyReturns weights data.series) }

end Model

section Selected

theorem distinctHistories_eq {histories : List (TokenAccount × List PricePoint)}
    {seen : List TokenAccount} (h : (seen ++ histories.map Prod.fst).Nodup) :
    distinctHistories seen histories = histories := by
  induction histories generalizing seen with
  | nil => rfl
  | cons history histories ih =>
    have hfresh : history.1 ∉ seen := by
      intro hmem
      exact List.disjoint_of_nodup_append h hmem List.mem_cons_self
    rw [distinctHistories, if_neg (by simpa using hfresh), ih (List.perm_middle.nodup h)]

variable (data : PortfolioData)

theorem PortfolioData.selectedTokens_sublist : data.selectedTokens.Sublist data.tokens :=
  List.filter_sublist.trans List.filter_sublist

theorem PortfolioData.dailyReturns_eq (hnodup : (data.tokens.map (·.symbol)).Nodup) :
    data.dailyReturns = data.selectedTokens.map fun t ↦
      calculateReturnsFromPrices ((data.historicalPrices.get t.symbol).getD []) := by
  have hget (t : TokenInfo) (ht : t ∈ data.selectedTokens) :
      (data.historicalPrices.get t.symbol).map (t.symbol, ·) =
        some (t.symbol, (data.historicalPrices.get t.symbol).getD []) := by
    have hkey := SortedMap.contains_iff.1 (List.mem_filter.1 ht).2
    obtain ⟨prices, hprices⟩ := SortedMap.exists_get hkey
    rw [hprices]
    rfl
  have hhistories : (data.selectedTokens.filterMap fun t ↦
      (data.historicalPrices.get t.symbol).map (t.symbol, ·)) =
      data.selectedTokens.map fun t ↦
        (t.symbol, (data.historicalPrices.get t.symbol).getD []) := by
    rw [List.filterMap_congr hget]
    simp
  rw [PortfolioData.dailyReturns, calculateDailyReturns, hhistories, distinctHistories_eq,
    List.map_map]
  · rfl
  · rw [List.nil_append, List.map_map]
    exact hnodup.sublist (data.selectedTokens_sublist.map _)

theorem PortfolioData.series_eq (hnodup : (data.tokens.map (·.symbol)).Nodup)
    (i : Fin data.selectedTokens.length) :
    data.series i = calculateReturnsFromPrices
      ((data.historicalPrices.get (data.selectedTokens.get i).symbol).getD []) := by
  rw [PortfolioData.series, data.dailyReturns_eq hnodup, List.getD_eq_getElem?_getD,
    List.getElem?_map, List.getElem?_eq_getElem i.isLt]
  rfl

theorem dynamicMaxPosition_lt (avgVolatility : ℚ) : dynamicMaxPosition avgVolatility < 1 := by
  have hnonneg : 0 ≤ volatilityRatio avgVolatility := le_max_left _ _
  rw [dynamicMaxPosition, maxPositionSize]
  linarith

theorem PortfolioData.optimalWeights_isPortfolio (sqrt : ℚ → ℚ) (lib : Decompositions ℚ)
    (eigen : SymmetricEigen ℚ) (hne : data.selectedTokens ≠ [])
    (hlength : data.selectedTokens.length < 10 ^ 8) :
    ∃ subset : List (Fin data.selectedTokens.length), subset.length ≤ maxHoldings ∧
      IsPortfolio minPositionSize subset (data.optimalWeights sqrt lib eigen) := by
  obtain ⟨subset, hsubset, hportfolio, -⟩ := unifiedOptimize_heldBy data.expectedReturns
    (fun i ↦ (data.selectedTokens.get i).liquidityScore.getD 0)
    (calculateCovarianceMatrix eigen data.series) lib sqrt (by simpa using hne) hlength
    (dynamicMaxPosition_lt (calculateMarketVolatility sqrt data.dailyReturns))
    (by decide : 1 ≤ maxHoldings)
    (by norm_num [maxHoldings, minPositionSize] : maxHoldings * minPositionSize ≤ 1)
    fun i ↦ tokenAlpha_mem (calculateMarketVolatility sqrt data.dailyReturns)
      (data.predictionConfidences.get (data.selectedTokens.get i).symbol)
  exact ⟨subset, hsubset, hportfolio⟩

end Selected

section Rounding

variable {w : ℚ}

theorem weightFromF64_close (w : ℚ) : |weightFromF64 w - w| ≤ 1 / 2 / 10 ^ 10 := by
  have hpos : (0 : ℚ) < 10 ^ 10 := by positivity
  have hle := Int.floor_le (w * 10 ^ 10 + 1 / 2)
  have hlt := Int.lt_floor_add_one (w * 10 ^ 10 + 1 / 2)
  rw [weightFromF64, div_sub' hpos.ne', abs_div, abs_of_pos hpos]
  gcongr
  rw [abs_le]
  constructor <;> linarith

theorem le_weightFromF64 (hw : 1 / 20 ≤ w) : 1 / 20 ≤ weightFromF64 w := by
  have hfloor : (500000000 : ℤ) ≤ ⌊w * 10 ^ 10 + 1 / 2⌋ := by
    rw [Int.le_floor]
    push_cast
    linarith
  rw [weightFromF64, div_le_div_iff₀ (by positivity) (by positivity)]
  have hcast : ((500000000 : ℤ) : ℚ) ≤ ⌊w * 10 ^ 10 + 1 / 2⌋ := Int.cast_le.2 hfloor
  push_cast at hcast
  linarith

end Rounding

section WeightMap

variable {selected : List TokenInfo} {w : Fin selected.length → ℚ}

def heldIndices (w : Fin selected.length → ℚ) : List (Fin selected.length) :=
  (List.finRange selected.length).filter (0 < w ·)

theorem symbols_eq (selected : List TokenInfo) :
    selected.map (·.symbol) =
      (List.finRange selected.length).map fun i ↦ (selected.get i).symbol := by
  conv_lhs => rw [← List.map_get_finRange selected, List.map_map]
  rfl

theorem perm_weightMap (hnodup : (selected.map (·.symbol)).Nodup)
    (w : Fin selected.length → ℚ) :
    (weightMap (selected.map (·.symbol)) (List.ofFn w)).entries.Perm
      ((heldIndices w).map fun i ↦ ((selected.get i).symbol, weightFromF64 (w i))) := by
  have hrows : (((selected.map (·.symbol)).zip (List.ofFn w)).filter fun x ↦ 0 < x.2).map
      (fun x ↦ (x.1, weightFromF64 x.2)) =
      (heldIndices w).map fun i ↦ ((selected.get i).symbol, weightFromF64 (w i)) := by
    rw [symbols_eq, List.ofFn_eq_map, List.zip_map', List.filter_map, List.map_map]
    rfl
  rw [weightMap, hrows]
  refine SortedMap.perm_foldl_insert ?_
  rw [symbols_eq] at hnodup
  rw [List.map_map]
  exact hnodup.sublist (List.filter_sublist.map _)

theorem length_heldIndices_le {subset : List (Fin selected.length)} (h : HeldWithin subset w) :
    (heldIndices w).length ≤ subset.length := by
  refine ((List.nodup_finRange _).filter _).subperm ?_ |>.length_le
  intro i hi
  exact h i (of_decide_eq_true (List.mem_filter.1 hi).2).ne'

theorem sum_heldIndices (hw : w ∈ stdSimplex ℚ (Fin selected.length)) :
    ((heldIndices w).map w).sum = 1 := by
  rw [← hw.2, ← List.sum_ofFn, List.ofFn_eq_map, heldIndices]
  induction List.finRange selected.length with
  | nil => rfl
  | cons i is ih =>
    rcases (hw.1 i).lt_or_eq with hpos | hzero
    · rw [List.filter_cons_of_pos (by simpa using hpos), List.map_cons, List.sum_cons, ih,
        List.map_cons, List.sum_cons]
    · rw [List.filter_cons_of_neg (by simp [← hzero]), ih, List.map_cons, List.sum_cons, ← hzero,
        zero_add]

theorem abs_sum_round_le (is : List (Fin selected.length)) (w : Fin selected.length → ℚ) :
    |(is.map fun i ↦ weightFromF64 (w i)).sum - (is.map w).sum| ≤
      is.length * (1 / 2 / 10 ^ 10) := by
  induction is with
  | nil => simp
  | cons i is ih =>
    rw [List.map_cons, List.sum_cons, List.map_cons, List.sum_cons, add_sub_add_comm,
      List.length_cons, Nat.cast_add_one, add_mul, one_mul, add_comm (_ * _)]
    exact (abs_add_le _ _).trans (add_le_add (weightFromF64_close _) ih)

end WeightMap

/-- The portfolio that is reported for the selected tokens: one to six of them, none with less than
a twentieth, together one up to the rounding. -/
structure IsTarget (selected : List TokenInfo) (weights : SortedMap TokenAccount BigDecimal) :
    Prop where
  one_le_size : 1 ≤ weights.size
  size_le : weights.size ≤ 6
  selected : ∀ token ∈ weights.keys, ∃ t ∈ selected, t.symbol = token
  weight_ge : ∀ token weight, weights.get token = some weight → 1 / 20 ≤ weight
  total_close : |weights.total - 1| ≤ 3 / 10 ^ 10

section Target

variable {selected : List TokenInfo} {w : Fin selected.length → ℚ}

theorem weightMap_isTarget (hnodup : (selected.map (·.symbol)).Nodup)
    {subset : List (Fin selected.length)} (hsubset : subset.length ≤ 6)
    (hw : IsPortfolio (1 / 20) subset w) :
    IsTarget selected (weightMap (selected.map (·.symbol)) (List.ofFn w)) := by
  have hperm := perm_weightMap hnodup w
  have hlength := length_heldIndices_le hw.held
  have hsize : (weightMap (selected.map (·.symbol)) (List.ofFn w)).size =
      (heldIndices w).length := by
    rw [SortedMap.size, hperm.length_eq, List.length_map]
  have hmem {token weight} (h : (token, weight) ∈
      (weightMap (selected.map (·.symbol)) (List.ofFn w)).entries) :
      ∃ i, 0 < w i ∧ (selected.get i).symbol = token ∧ weightFromF64 (w i) = weight := by
    obtain ⟨i, hi, heq⟩ := List.mem_map.1 (hperm.mem_iff.1 h)
    obtain ⟨rfl, rfl⟩ := Prod.mk.inj heq
    exact ⟨i, of_decide_eq_true (List.mem_filter.1 hi).2, rfl, rfl⟩
  refine ⟨?_, by omega, fun token htoken ↦ ?_, fun token weight hget ↦ ?_, ?_⟩
  · obtain ⟨i, hi⟩ := hw.exists_pos
    rw [hsize]
    exact List.length_pos_of_mem (List.mem_filter.2 ⟨List.mem_finRange i, decide_eq_true hi⟩)
  · obtain ⟨weight, hentry⟩ := SortedMap.mem_keys.1 htoken
    obtain ⟨i, -, rfl, -⟩ := hmem hentry
    exact ⟨_, List.get_mem _ _, rfl⟩
  · obtain ⟨i, hi, -, rfl⟩ := hmem (SortedMap.get_eq_some.1 hget)
    exact le_weightFromF64 (hw.floor i hi.ne')
  · have hclose := abs_sum_round_le (heldIndices w) w
    have htotal : (weightMap (selected.map (·.symbol)) (List.ofFn w)).total =
        ((heldIndices w).map fun i ↦ weightFromF64 (w i)).sum := by
      rw [SortedMap.total, (hperm.map Prod.snd).sum_eq, List.map_map]
      rfl
    rw [sum_heldIndices hw.mem] at hclose
    rw [htotal]
    refine hclose.trans ?_
    have hcast : ((heldIndices w).length : ℚ) ≤ 6 := by exact_mod_cast hlength.trans hsubset
    linarith

theorem needsRebalancing_iff (current : TokenInfo → ℚ) (threshold : ℚ) :
    needsRebalancing (selected.map current) (List.ofFn w) threshold = true ↔
      ∃ i, threshold < |current (selected.get i) - w i| := by
  have hcurrent : selected.map current =
      (List.finRange selected.length).map fun i ↦ current (selected.get i) := by
    conv_lhs => rw [← List.map_get_finRange selected, List.map_map]
    rfl
  rw [needsRebalancing, if_neg (by simp), hcurrent, List.ofFn_eq_map, List.zip_map', List.any_map]
  simp

theorem PortfolioData.optimalWeights_isTarget (data : PortfolioData) (sqrt : ℚ → ℚ)
    (lib : Decompositions ℚ) (eigen : SymmetricEigen ℚ)
    (hnodup : (data.tokens.map (·.symbol)).Nodup) (hlength : data.tokens.length < 10 ^ 8)
    (hne : data.selectedTokens ≠ []) :
    IsTarget data.selectedTokens (weightMap (data.selectedTokens.map (·.symbol))
      (List.ofFn (data.optimalWeights sqrt lib eigen))) := by
  have hselected : data.selectedTokens.length < 10 ^ 8 :=
    data.selectedTokens_sublist.length_le.trans_lt hlength
  have hfloor : minPositionSize = 1 / 20 := by norm_num [minPositionSize]
  obtain ⟨subset, hsubset, hportfolio⟩ :=
    data.optimalWeights_isPortfolio sqrt lib eigen hne hselected
  refine weightMap_isTarget (hnodup.sublist (data.selectedTokens_sublist.map _)) hsubset ?_
  exact ⟨hportfolio.mem, hportfolio.held, fun i hi ↦ hfloor ▸ hportfolio.floor i hi⟩

theorem IsTarget.generateRebalanceActions_eq {tokens : List TokenAccount} {weights : List ℚ}
    (h : IsTarget selected (weightMap tokens weights)) :
    generateRebalanceActions tokens weights = [.rebalance (weightMap tokens weights)] := by
  have hsize := h.one_le_size
  rw [generateRebalanceActions]
  refine if_neg fun hisEmpty ↦ ?_
  rw [SortedMap.size, weightMap, List.isEmpty_iff.1 hisEmpty] at hsize
  exact absurd hsize (by decide)

end Target

section Report

variable (sqrt : ℚ → ℚ) (lib : Decompositions ℚ) (eigen : SymmetricEigen ℚ) (wallet : WalletInfo)
  (data : PortfolioData) (rebalanceThreshold : ℚ)

theorem PortfolioData.selectedTokens_eq_nil (h : hardFilterTokens data.tokens = []) :
    data.selectedTokens = [] := by
  rw [PortfolioData.selectedTokens, h]
  rfl

theorem weightMap_of_nil {selected : List TokenInfo} (h : selected = []) (weights : List ℚ) :
    weightMap (selected.map (·.symbol)) weights = SortedMap.empty := by
  rw [h]
  rfl

theorem executePortfolioOptimization_weights :
    (executePortfolioOptimization sqrt lib eigen wallet data
        rebalanceThreshold).optimalWeights.weights =
      weightMap (data.selectedTokens.map (·.symbol))
        (List.ofFn (data.optimalWeights sqrt lib eigen)) := by
  rcases eq_or_ne (hardFilterTokens data.tokens) [] with hempty | hsome
  · rw [executePortfolioOptimization, if_pos hempty,
      weightMap_of_nil (data.selectedTokens_eq_nil hempty)]
  · simp only [executePortfolioOptimization, if_neg hsome]

theorem rebalanceNeeded_iff :
    (executePortfolioOptimization sqrt lib eigen wallet data
        rebalanceThreshold).rebalanceNeeded = true ↔
      ∃ i, rebalanceThreshold <
        |calculateCurrentWeights wallet (data.selectedTokens.get i) -
          data.optimalWeights sqrt lib eigen i| := by
  rcases eq_or_ne (hardFilterTokens data.tokens) [] with hempty | hsome
  · rw [executePortfolioOptimization, if_pos hempty]
    refine iff_of_false (by decide) ?_
    rintro ⟨i, -⟩
    rw [data.selectedTokens_eq_nil hempty] at i
    exact i.elim0
  · rw [executePortfolioOptimization, if_neg hsome]
    exact needsRebalancing_iff (calculateCurrentWeights wallet) rebalanceThreshold

variable {data}

theorem executePortfolioOptimization_isTarget (hnodup : (data.tokens.map (·.symbol)).Nodup)
    (hlength : data.tokens.length < 10 ^ 8) (hne : data.selectedTokens ≠ []) :
    IsTarget data.selectedTokens (executePortfolioOptimization sqrt lib eigen wallet data
      rebalanceThreshold).optimalWeights.weights := by
  rw [executePortfolioOptimization_weights]
  exact data.optimalWeights_isTarget sqrt lib eigen hnodup hlength hne

theorem executePortfolioOptimization_actions (hnodup : (data.tokens.map (·.symbol)).Nodup)
    (hlength : data.tokens.length < 10 ^ 8) :
    let report := executePortfolioOptimization sqrt lib eigen wallet data rebalanceThreshold
    report.actions = if report.rebalanceNeeded then [.rebalance report.optimalWeights.weights]
      else [.hold] := by
  intro report
  have hneeded : report.rebalanceNeeded = true ↔ _ :=
    rebalanceNeeded_iff sqrt lib eigen wallet data rebalanceThreshold
  rcases eq_or_ne (hardFilterTokens data.tokens) [] with hempty | hsome
  · have hreport : report = ⟨[.hold], ⟨SortedMap.empty, 0, 0, 0⟩, false, ⟨0, 0, 0, 0⟩⟩ :=
      if_pos hempty
    rw [hreport]
    rfl
  · have hactions : report.actions =
        if report.rebalanceNeeded then generateRebalanceActions
          (data.selectedTokens.map (·.symbol)) (List.ofFn (data.optimalWeights sqrt lib eigen))
        else [.hold] := by
      simp only [report, executePortfolioOptimization, if_neg hsome]
    rw [hactions]
    split_ifs with htrue
    · have hne : data.selectedTokens ≠ [] := by
        intro hnil
        obtain ⟨i, -⟩ := hneeded.1 htrue
        rw [hnil] at i
        exact i.elim0
      have htarget := data.optimalWeights_isTarget sqrt lib eigen hnodup hlength hne
      rw [htarget.generateRebalanceActions_eq, executePortfolioOptimization_weights]
    · rfl

/-- The actions are to hold, or to rebalance once to the weights that are reported. Those are a
portfolio of selected tokens wherever there are any, made from the returns of each token's own
prices, and the wallet is left alone exactly if no weight is further from it than the threshold. -/
theorem executePortfolioOptimization_report (sqrt : ℚ → ℚ) (lib : Decompositions ℚ)
    (eigen : SymmetricEigen ℚ) (wallet : WalletInfo) (data : PortfolioData)
    (rebalanceThreshold : ℚ) (hnodup : (data.tokens.map (·.symbol)).Nodup)
    (hlength : data.tokens.length < 10 ^ 8) :
    let report := executePortfolioOptimization sqrt lib eigen wallet data rebalanceThreshold
    report.actions = (if report.rebalanceNeeded then [.rebalance report.optimalWeights.weights]
      else [.hold]) ∧
    (report.rebalanceNeeded = true ↔ ∃ i, rebalanceThreshold <
      |calculateCurrentWeights wallet (data.selectedTokens.get i) -
        data.optimalWeights sqrt lib eigen i|) ∧
    (data.selectedTokens = [] → report.optimalWeights.weights = SortedMap.empty) ∧
    (data.selectedTokens ≠ [] → IsTarget data.selectedTokens report.optimalWeights.weights) ∧
    ∀ i, data.series i = calculateReturnsFromPrices
      ((data.historicalPrices.get (data.selectedTokens.get i).symbol).getD []) := by
  refine ⟨executePortfolioOptimization_actions sqrt lib eigen wallet rebalanceThreshold hnodup
    hlength, rebalanceNeeded_iff sqrt lib eigen wallet data rebalanceThreshold, fun hnil ↦ ?_,
    executePortfolioOptimization_isTarget sqrt lib eigen wallet rebalanceThreshold hnodup hlength,
    data.series_eq hnodup⟩
  rw [executePortfolioOptimization_weights, weightMap_of_nil hnil]

end Report

def threeTokens : PortfolioData where
  tokens :=
    [⟨⟨"aurora"⟩, ⟨10 ^ 18, 18⟩, 0, some 1, none⟩,
      ⟨⟨"dai.near"⟩, ⟨2, 18⟩, 0, some (1 / 2), some 20000⟩, ⟨⟨"usdt"⟩, ⟨3, 6⟩, 0, none, none⟩]
  predictions := SortedMap.empty.insert ⟨"aurora"⟩ 2
  historicalPrices := (SortedMap.empty.insert ⟨"aurora"⟩ [⟨0, 1⟩, ⟨2, 3⟩, ⟨1, 2⟩]).insert
    ⟨"dai.near"⟩ [⟨0, 5⟩, ⟨1, 4⟩, ⟨2, 5⟩]
  predictionConfidences := SortedMap.empty

theorem executePortfolioOptimization_report_threeTokens :
    IsTarget threeTokens.selectedTokens
      (executePortfolioOptimization rationalRoot eliminating ⟨fun _ ↦ 0, fun _ ↦ 1⟩
        ⟨SortedMap.empty, 0, 0⟩ threeTokens (1 / 10)).optimalWeights.weights :=
  (executePortfolioOptimization_report rationalRoot eliminating ⟨fun _ ↦ 0, fun _ ↦ 1⟩
    ⟨SortedMap.empty, 0, 0⟩ threeTokens (1 / 10) (by decide) (by decide)).2.2.2.1
    fun hnil ↦ absurd (congrArg List.length hnil) (by decide +kernel)

end Zaciraci.Portfolio
