import Mathlib.Algebra.Order.BigOperators.Group.List
import Mathlib.Analysis.SpecialFunctions.Exp
import Zaciraci.Portfolio.Drawdown
import Zaciraci.Simulate.Accounting
import Zaciraci.Simulate.Client
import Zaciraci.Simulate.Engine

namespace Zaciraci.Simulate

open Lib Persistence
open Trade (hour second)

section Model

structure ReportArgs extends RunArgs where
  initialCapital : ℚ
  topTokens : ℕ
  priceHistoryDays : ℤ
  rebalanceThreshold : ℚ

def pnlToNear (pnlYocto : ℤ) : ℚ := pnlYocto / yoctoPerNear

def yoctoToNear (yocto : ℕ) : ℚ := yocto / yoctoPerNear

inductive TradeAction
  | buy
  | sell
  | liquidation
deriving DecidableEq

structure TradeRecord where
  timestamp : Time
  action : TradeAction
  token : TokenAccount
  amount : TokenAmount
  priceNear : ℚ
  realizedPnlNear : Option ℚ

structure Snapshot extends PortfolioSnapshot ℚ where
  timestamp : Time
  holdings : SortedMap TokenAccount TokenAmount
  cashBalance : BigDecimal
  realizedPnlNear : ℚ

namespace PortfolioState

/-- A holding without a rate counts nothing. -/
def calculateTotalValueNear (rates : TokenAccount → Option ExchangeRate) (state : PortfolioState) :
    ℚ :=
  state.holdings.entries.foldl (fun total position ↦
    if position.2.isZero then total
    else match rates position.1 with
      | some rate => total + position.2.value rate
      | none => total) (state.cashBalance / yoctoPerNear)

def snapshot (rates : TokenAccount → Option ExchangeRate) (simDay : Time)
    (state : PortfolioState) : Snapshot where
  totalValueNear := state.calculateTotalValueNear rates
  timestamp := simDay
  holdings := state.holdings
  cashBalance := state.cashBalance
  realizedPnlNear := pnlToNear state.realizedPnl

def liquidationRecord (rates : TokenAccount → Option ExchangeRate) (simDay : Time)
    (state : PortfolioState) (position : TokenAccount × TokenAmount) : Option TradeRecord :=
  let sellYocto := tokenAmountToYocto rates position.1 position.2
  if sellYocto = 0 then none
  else
    let removed := { state with holdings := state.holdings.erase position.1 }
    let pnl := toI128OrWarn (removed.exactPnl position.1 (toU128OrWarn position.2.smallestUnits)
      sellYocto)
    some ⟨simDay, .liquidation, position.1, position.2, yoctoToNear sellYocto,
      some (pnlToNear pnl)⟩

def liquidationRecords (rates : TokenAccount → Option ExchangeRate) (simDay : Time) :
    PortfolioState → List (TokenAccount × TokenAmount) → List TradeRecord
  | _, [] => []
  | state, position :: positions =>
    (state.liquidationRecord rates simDay position).toList ++
      liquidationRecords rates simDay (state.liquidateToken rates position) positions

end PortfolioState

structure SwapStats where
  totalSwaps : ℕ
  poolBasedSwaps : ℕ
  fallbackSwaps : ℕ
  fallbackRate : ℚ

def SwapStats.fromEvents (events : List SwapEvent) : SwapStats :=
  let totalSwaps := events.length
  let poolBasedSwaps := events.countP (·.swapMethod = .poolBased)
  let fallbackSwaps := events.countP (·.swapMethod = .dbRate)
  let fallbackRate := if 0 < totalSwaps then (fallbackSwaps : ℚ) / totalSwaps else 0
  ⟨totalSwaps, poolBasedSwaps, fallbackSwaps, fallbackRate⟩

structure PerformanceMetrics where
  totalReturn : ℚ
  sharpeRatio : ℚ
  sortinoRatio : ℚ
  maxDrawdown : ℚ
  winRate : ℚ
  finalBalanceNear : ℚ
  totalRealizedPnlNear : ℚ
  tradeCount : ℕ
  liquidationCount : ℕ
  swapStats : SwapStats

structure PerformanceInput where
  initialCapital : ℚ
  snapshots : List Snapshot
  realizedPnl : ℤ
  tradeCount : ℕ
  liquidationCount : ℕ
  rebalanceIntervalDays : ℤ
  swapStats : SwapStats

variable (sqrt : ℚ → ℚ)

def calculateSharpeRatio (returns : List ℚ) (intervalDays : ℤ) : ℚ :=
  if returns.length < 2 then 0
  else
    let mean := returns.sum / returns.length
    let variance : ℚ := (returns.map fun r ↦ (r - mean) ^ 2).sum / (returns.length - 1 : ℕ)
    let stdDev := sqrt variance
    if stdDev = 0 then 0
    else
      let periodsPerYear : ℚ := 365 / intervalDays
      mean / stdDev * sqrt periodsPerYear

/-- Only the losses count, among all returns. -/
def calculateSortinoRatio (returns : List ℚ) (intervalDays : ℤ) : ℚ :=
  if returns.length < 2 then 0
  else
    let mean := returns.sum / returns.length
    let downsideVariance : ℚ := ((returns.filter (· < 0)).map (· ^ 2)).sum / returns.length
    let downsideDev := sqrt downsideVariance
    if downsideDev = 0 then 0
    else
      let periodsPerYear : ℚ := 365 / intervalDays
      mean / downsideDev * sqrt periodsPerYear

def calculatePerformance (input : PerformanceInput) : PerformanceMetrics :=
  match input.snapshots.getLast? with
  | none =>
    { totalReturn := 0
      sharpeRatio := 0
      sortinoRatio := 0
      maxDrawdown := 0
      winRate := 0
      finalBalanceNear := input.initialCapital
      totalRealizedPnlNear := pnlToNear input.realizedPnl
      tradeCount := input.tradeCount
      liquidationCount := input.liquidationCount
      swapStats := input.swapStats }
  | some last =>
    let finalValue := last.totalValueNear
    let values := input.snapshots.map Snapshot.toPortfolioSnapshot
    let returns := periodReturns input.initialCapital values
    { totalReturn := if 0 < input.initialCapital then
          (finalValue - input.initialCapital) / input.initialCapital
        else 0
      sharpeRatio := calculateSharpeRatio sqrt returns input.rebalanceIntervalDays
      sortinoRatio := calculateSortinoRatio sqrt returns input.rebalanceIntervalDays
      maxDrawdown := calculateMaxDrawdown values
      winRate := if returns = [] then 0 else (returns.countP (0 < ·) : ℚ) / returns.length
      finalBalanceNear := finalValue
      totalRealizedPnlNear := pnlToNear input.realizedPnl
      tradeCount := input.tradeCount
      liquidationCount := input.liquidationCount
      swapStats := input.swapStats }

structure TradeEntry where
  timestamp : Time
  action : TradeAction
  token : TokenAccount
  amount : ℕ
  price : ℚ
  realizedPnl : Option ℚ

structure SwapEventEntry where
  timestamp : Time
  tokenIn : TokenAccount
  amountIn : TokenAmount
  amountInRaw : ℕ
  tokenOut : TokenAccount
  amountOut : TokenAmount
  amountOutRaw : ℕ
  swapMethod : SwapMethod
  poolIds : List ℕ

structure PortfolioValueEntry where
  timestamp : Time
  totalValue : ℚ
  holdings : List (TokenAccount × ℕ)
  cashBalance : ℚ
  dailyPnlNear : ℚ
  dailyPnlPct : ℚ
  cumulativeRealizedPnlNear : ℚ

/-- The loop over the snapshots, with the value before. -/
def portfolioValues : ℚ → List Snapshot → List PortfolioValueEntry
  | _, [] => []
  | prevValue, s :: snapshots =>
    let dailyPnlNear := s.totalValueNear - prevValue
    { timestamp := s.timestamp
      totalValue := s.totalValueNear
      holdings := s.holdings.entries.map fun e ↦ (e.1, toU128OrWarn e.2.smallestUnits)
      cashBalance := s.cashBalance / yoctoPerNear
      dailyPnlNear
      dailyPnlPct := if 0 < prevValue then dailyPnlNear / prevValue else 0
      cumulativeRealizedPnlNear := s.realizedPnlNear } ::
      portfolioValues s.totalValueNear snapshots

structure SimulationResult where
  config : ReportArgs
  performance : PerformanceMetrics
  trades : List TradeEntry
  swapEvents : List SwapEventEntry
  portfolioValues : List PortfolioValueEntry

/-- The world of a simulation with the parts of the portfolio that only the report reads. -/
structure Simulation (γ : Type) where
  world : World γ
  snapshots : List Snapshot
  trades : List TradeRecord

variable {γ : Type}

def SimulationResult.performanceInput (args : ReportArgs) (s : Simulation γ) :
    PerformanceInput where
  initialCapital := args.initialCapital
  snapshots := s.snapshots
  realizedPnl := s.world.portfolio.realizedPnl
  tradeCount := s.trades.countP (·.action ≠ .liquidation)
  liquidationCount := s.trades.countP (·.action = .liquidation)
  rebalanceIntervalDays := args.rebalanceIntervalDays
  swapStats := .fromEvents s.world.portfolio.swapEvents

def SimulationResult.fromState (args : ReportArgs) (s : Simulation γ) : SimulationResult where
  config := args
  performance := calculatePerformance sqrt (performanceInput args s)
  trades := s.trades.map fun t ↦
    ⟨t.timestamp, t.action, t.token, toU128OrWarn t.amount.smallestUnits, t.priceNear,
      t.realizedPnlNear⟩
  swapEvents := s.world.portfolio.swapEvents.map fun e ↦
    ⟨e.timestamp, e.tokenIn, e.amountIn, toU128OrWarn e.amountIn.smallestUnits, e.tokenOut,
      e.amountOut, toU128OrWarn e.amountOut.smallestUnits, e.swapMethod, e.poolIds⟩
  portfolioValues := Simulate.portfolioValues args.initialCapital s.snapshots

structure Cycles (γ : Type) where
  setting : Trade.Setting
  analysis : Trade.Analysis
  outside : Outside γ
  cfg : Trade.ConfigAccess

def Cycles.run (cycles : Cycles γ) (initialNative : BigDecimal) (simDay : Time) (w : World γ) :
    Program.Report Trade.Request Trade.Answer String (List Trade.TradingAction) (World γ) :=
  simulateCycle cycles.setting cycles.analysis initialNative simDay cycles.outside cycles.cfg w

namespace Simulation

def rates (wnear : TokenAccount) (w : World γ) (simDay : Time) :
    TokenAccount → Option ExchangeRate :=
  getRateAtDate ⟨wnear, 0, simDay⟩ w.db

def day (cycles : Cycles γ) (initialNative : BigDecimal) (simDay : Time)
    (o : Outcome String (Simulation γ)) : Outcome String (Simulation γ) := do
  let s ← o
  let cycle := cycles.run initialNative simDay s.world
  match cycle.outcome with
  | .panicked m => .panicked m
  | _ =>
    let rates := rates cycles.setting.wnear cycle.state simDay
    .ok { s with
      world := cycle.state
      snapshots := s.snapshots ++ [cycle.state.portfolio.snapshot rates simDay] }

def liquidate (wnear : TokenAccount) (endDay : Time) (s : Simulation γ) : Simulation γ :=
  let rates := rates wnear s.world endDay
  let state := s.world.portfolio
  let positions := state.holdings.entries.filter fun position ↦ !position.2.isZero
  let sold := state.liquidateAll rates
  { world := { s.world with portfolio := sold }
    snapshots := s.snapshots ++ [sold.snapshot rates endDay]
    trades := s.trades ++ state.liquidationRecords rates endDay positions }

/-- The world in which a run starts trading, with the predictions that are generated first. -/
def opening (env : ℤ → DayEnv) (args : ReportArgs) (table : PredictionTable) (w : World γ) :
    World γ :=
  let generated := if args.generatePredictions then
      (generatePredictionsForRange env w.db args.startDate args.endDate table).map Prod.snd
    else none
  { w with
    db := { w.db with
      predictionRecords := (generated.getD table).records.map (·.toPredictionRecord) }
    portfolio := .new (args.initialCapital * yoctoPerNear)
    registered := .empty }

def report (cycles : Cycles γ) (env : ℤ → DayEnv) (args : ReportArgs) (table : PredictionTable)
    (w : World γ) : Option (Outcome String SimulationResult) := do
  let initialNative := args.initialCapital * yoctoPerNear
  match ← runSimulation env w.db args.toRunArgs table (day cycles initialNative)
      (fun endDay o ↦ do return (← o).liquidate cycles.setting.wnear endDay)
      (.ok ⟨opening env args table w, [], []⟩) with
  | .error e => some (.err e)
  | .ok o => some (do return .fromState sqrt args (← o))

end Simulation

end Model

section Metrics

variable {c : ℚ} {snapshots : List Snapshot}

theorem SwapStats.fromEvents_partition (events : List SwapEvent) :
    let stats := SwapStats.fromEvents events
    stats.poolBasedSwaps + stats.fallbackSwaps = stats.totalSwaps ∧
      stats.fallbackRate * stats.totalSwaps = stats.fallbackSwaps := by
  intro stats
  constructor
  · refine Eq.trans ?_ (List.length_eq_countP_add_countP (·.swapMethod = .poolBased)).symm
    refine congrArg _ (List.countP_congr fun e _ ↦ ?_)
    cases e.swapMethod <;> simp
  · change (if 0 < events.length then (stats.fallbackSwaps : ℚ) / events.length else 0) *
      events.length = stats.fallbackSwaps
    split
    · next hpos => exact div_mul_cancel₀ _ (by exact_mod_cast hpos.ne')
    · next hpos =>
      have hnil : events = [] := List.length_eq_zero_iff.1 (by omega)
      simp [stats, SwapStats.fromEvents, hnil]

theorem length_portfolioValues (c : ℚ) (snapshots : List Snapshot) :
    (portfolioValues c snapshots).length = snapshots.length := by
  induction snapshots generalizing c with
  | nil => rfl
  | cons s snapshots ih => simp [portfolioValues, ih]

theorem sum_dailyPnlNear (c : ℚ) (snapshots : List Snapshot) :
    ((portfolioValues c snapshots).map (·.dailyPnlNear)).sum =
      (snapshots.getLast?.map (·.totalValueNear)).getD c - c := by
  induction snapshots generalizing c with
  | nil => simp [portfolioValues]
  | cons s snapshots ih =>
    rw [portfolioValues, List.map_cons, List.sum_cons, ih, List.getLast?_cons]
    cases snapshots.getLast? with
    | none => simp
    | some last => simp

variable {values : List (PortfolioSnapshot ℚ)}

theorem prod_periodReturns (hc : 0 < c) (hpos : ∀ s ∈ values, 0 < s.totalValueNear) :
    ((periodReturns c values).map (1 + ·)).prod =
      (values.getLast?.map (·.totalValueNear)).getD c / c := by
  induction values generalizing c with
  | nil => simp [periodReturns, hc.ne']
  | cons s values ih =>
    rw [List.forall_mem_cons] at hpos
    rw [periodReturns, if_pos hc, List.map_cons, List.prod_cons, ih hpos.1 hpos.2,
      List.getLast?_cons]
    have hs := hpos.1.ne'
    cases values.getLast? with
    | none =>
      simp only [Option.map_none, Option.getD_none, Option.map_some, Option.getD_some]
      field_simp
      ring
    | some last =>
      simp only [Option.map_some, Option.getD_some]
      field_simp
      ring

theorem one_add_periodReturns_pos (hc : 0 < c) (hpos : ∀ s ∈ values, 0 < s.totalValueNear) :
    ∀ r ∈ periodReturns c values, 0 < 1 + r := by
  induction values generalizing c with
  | nil => simp [periodReturns]
  | cons s values ih =>
    rw [List.forall_mem_cons] at hpos
    rw [periodReturns, if_pos hc, List.forall_mem_cons]
    refine ⟨?_, ih hpos.1 hpos.2⟩
    have hratio : 1 + (s.totalValueNear - c) / c = s.totalValueNear / c := by
      field_simp
      ring
    rw [hratio]
    exact div_pos hpos.1 hc

theorem prod_one_add_le_exp {returns : List ℚ} (h : ∀ r ∈ returns, 0 < 1 + r) :
    (((returns.map (1 + ·)).prod : ℚ) : ℝ) ≤ Real.exp (returns.sum : ℚ) := by
  induction returns with
  | nil => simp
  | cons r returns ih =>
    rw [List.forall_mem_cons] at h
    have hr : ((1 + r : ℚ) : ℝ) ≤ Real.exp (r : ℚ) := by
      push_cast
      rw [add_comm]
      exact Real.add_one_le_exp (r : ℝ)
    have hprod : (0 : ℚ) ≤ (returns.map (1 + ·)).prod := by
      apply List.prod_nonneg
      intro x hx
      obtain ⟨r, hr, rfl⟩ := List.mem_map.1 hx
      exact (h.2 r hr).le
    rw [List.map_cons, List.prod_cons, List.sum_cons, Rat.cast_mul, Rat.cast_add r, Real.exp_add]
    exact mul_le_mul hr (ih h.2) (by exact_mod_cast hprod) (Real.exp_pos _).le

theorem sum_pos_of_one_lt_prod {returns : List ℚ} (h : ∀ r ∈ returns, 0 < 1 + r)
    (hprod : 1 < (returns.map (1 + ·)).prod) : 0 < returns.sum := by
  have hexp : (1 : ℝ) < Real.exp (returns.sum : ℚ) :=
    lt_of_lt_of_le (by exact_mod_cast hprod) (prod_one_add_le_exp h)
  exact_mod_cast Real.one_lt_exp_iff.1 hexp

variable {sqrt : ℚ → ℚ} {returns : List ℚ} {intervalDays : ℤ}

theorem annualized_nonneg (hsqrt : ∀ x, 0 ≤ sqrt x) (hsum : 0 < returns.sum) (variance years : ℚ) :
    0 ≤ if sqrt variance = 0 then 0
      else returns.sum / returns.length / sqrt variance * sqrt years := by
  split
  · exact le_rfl
  · exact mul_nonneg (div_nonneg (div_nonneg hsum.le (Nat.cast_nonneg _)) (hsqrt _)) (hsqrt _)

theorem sharpeRatio_nonneg (hsqrt : ∀ x, 0 ≤ sqrt x) (hsum : 0 < returns.sum) :
    0 ≤ calculateSharpeRatio sqrt returns intervalDays := by
  rw [calculateSharpeRatio]
  split
  · exact le_rfl
  · exact annualized_nonneg hsqrt hsum _ _

theorem sortinoRatio_nonneg (hsqrt : ∀ x, 0 ≤ sqrt x) (hsum : 0 < returns.sum) :
    0 ≤ calculateSortinoRatio sqrt returns intervalDays := by
  rw [calculateSortinoRatio]
  split
  · exact le_rfl
  · exact annualized_nonneg hsqrt hsum _ _

theorem winRate_mem (returns : List ℚ) :
    let winRate : ℚ := if returns = [] then 0 else (returns.countP (0 < ·) : ℚ) / returns.length
    0 ≤ winRate ∧ winRate ≤ 1 ∧ (0 < returns.sum → 0 < winRate) := by
  intro winRate
  by_cases hnil : returns = []
  · have hzero : winRate = 0 := if_pos hnil
    rw [hzero, hnil]
    exact ⟨le_rfl, zero_le_one, id⟩
  have hlength : (0 : ℚ) < returns.length := by
    exact_mod_cast List.length_pos_iff.2 hnil
  have hwin : winRate = (returns.countP (0 < ·) : ℚ) / returns.length := if_neg hnil
  rw [hwin]
  refine ⟨div_nonneg (Nat.cast_nonneg _) hlength.le, ?_, ?_⟩
  · rw [div_le_one hlength]
    exact_mod_cast List.countP_le_length
  · intro hsum
    refine div_pos ?_ hlength
    -- without a positive return the sum is not positive
    have hsome : 0 < returns.countP (0 < ·) := by
      by_contra hnone
      rw [not_lt, Nat.le_zero, List.countP_eq_zero] at hnone
      have hle : returns.sum ≤ returns.length • 0 :=
        List.sum_le_card_nsmul returns 0 fun r hr ↦ by simpa using hnone r hr
      rw [smul_zero] at hle
      exact hsum.not_ge hle
    exact_mod_cast hsome

theorem maxDrawdown_mem (hpos : ∀ s ∈ values, 0 < s.totalValueNear) :
    0 ≤ calculateMaxDrawdown values ∧ calculateMaxDrawdown values < 1 := by
  cases values with
  | nil => exact ⟨le_rfl, zero_lt_one⟩
  | cons first rest =>
    rw [Portfolio.simulate_calculateMaxDrawdown_eq]
    have hvalues : ∀ v ∈ (first :: rest).map PortfolioSnapshot.totalValueNear, 0 < v := by
      intro v hv
      obtain ⟨s, hs, rfl⟩ := List.mem_map.1 hv
      exact hpos s hs
    obtain ⟨hmem, hmax⟩ := Portfolio.isGreatest_of_ne_nil (by simp) hvalues
    refine ⟨hmax (Set.mem_insert 0 _), ?_⟩
    rw [Set.mem_insert_iff] at hmem
    obtain hzero | ⟨i, j, v, w, -, hv, hw, heq⟩ := hmem
    · rw [hzero]
      exact zero_lt_one
    · have hv' := hvalues v (List.mem_of_getElem? hv)
      rw [heq, div_lt_one hv']
      exact sub_lt_self v (hvalues w (List.mem_of_getElem? hw))

/-- As long as the portfolio is worth something, the returns of a report compound to its total
return, its rates are rates, and if it ends above its capital then all of its ratios say so. -/
theorem calculatePerformance_coherent (sqrt : ℚ → ℚ) (hsqrt : ∀ x, 0 ≤ sqrt x)
    (input : PerformanceInput) (hcapital : 0 < input.initialCapital)
    (hpos : ∀ s ∈ input.snapshots, 0 < s.totalValueNear) :
    let performance := calculatePerformance sqrt input
    let returns := periodReturns input.initialCapital
      (input.snapshots.map Snapshot.toPortfolioSnapshot)
    (returns.map (1 + ·)).prod = 1 + performance.totalReturn ∧
    (0 ≤ performance.maxDrawdown ∧ performance.maxDrawdown < 1) ∧
    (0 ≤ performance.winRate ∧ performance.winRate ≤ 1) ∧
    (0 < performance.totalReturn →
      0 ≤ performance.sharpeRatio ∧ 0 ≤ performance.sortinoRatio ∧ 0 < performance.winRate) := by
  intro performance returns
  set values := input.snapshots.map Snapshot.toPortfolioSnapshot with hvalues
  have hvaluesPos : ∀ s ∈ values, 0 < s.totalValueNear := by
    intro s hs
    obtain ⟨s, hmem, rfl⟩ := List.mem_map.1 hs
    exact hpos s hmem
  have hprod := prod_periodReturns hcapital hvaluesPos
  rw [hvalues, List.getLast?_map, ← hvalues] at hprod
  cases hlast : input.snapshots.getLast? with
  | none =>
    have hnil : returns = [] := by
      have hempty : values = [] := by rw [hvalues, List.getLast?_eq_none_iff.1 hlast]; rfl
      rw [show returns = periodReturns input.initialCapital values from rfl, hempty]
      rfl
    have hperformance : performance.totalReturn = 0 ∧ performance.maxDrawdown = 0 ∧
        performance.winRate = 0 := by
      simp [performance, calculatePerformance, hlast]
    obtain ⟨htotal, hdrawdown, hwin⟩ := hperformance
    rw [hnil, htotal, hdrawdown, hwin]
    simp
  | some last =>
    have hperformance : performance.totalReturn =
          (last.totalValueNear - input.initialCapital) / input.initialCapital ∧
        performance.maxDrawdown = calculateMaxDrawdown values ∧
        performance.winRate =
          (if returns = [] then 0 else (returns.countP (0 < ·) : ℚ) / returns.length) ∧
        performance.sharpeRatio =
          calculateSharpeRatio sqrt returns input.rebalanceIntervalDays ∧
        performance.sortinoRatio =
          calculateSortinoRatio sqrt returns input.rebalanceIntervalDays := by
      refine ⟨?_, ?_, ?_, ?_, ?_⟩ <;>
        simp only [performance, calculatePerformance, hlast, if_pos hcapital] <;> rfl
    obtain ⟨htotal, hdrawdown, hwin, hsharpe, hsortino⟩ := hperformance
    have hcompound : (returns.map (1 + ·)).prod = 1 + performance.totalReturn := by
      rw [htotal, hprod, hlast]
      have hne := hcapital.ne'
      simp only [Option.map_some, Option.getD_some]
      field_simp
      ring
    have hrate := winRate_mem returns
    rw [hdrawdown, hwin, hsharpe, hsortino]
    refine ⟨hcompound, maxDrawdown_mem hvaluesPos, ⟨hrate.1, hrate.2.1⟩, ?_⟩
    intro hgain
    have hsum : 0 < returns.sum := by
      refine sum_pos_of_one_lt_prod (one_add_periodReturns_pos hcapital hvaluesPos) ?_
      rw [hcompound]
      linarith
    exact ⟨sharpeRatio_nonneg hsqrt hsum, sortinoRatio_nonneg hsqrt hsum, hrate.2.2 hsum⟩

/-- A loss of a tenth and then a gain of a third. -/
theorem calculatePerformance_coherent_recovery :
    let snapshots := [90, 120].map fun v ↦ (⟨⟨v⟩, 0, .empty, 0, 0⟩ : Snapshot)
    let performance :=
      calculatePerformance (fun x ↦ |x|) ⟨100, snapshots, 0, 0, 0, 1, .fromEvents []⟩
    performance.totalReturn = 1 / 5 ∧ 0 ≤ performance.sharpeRatio ∧ 0 < performance.winRate := by
  intro snapshots performance
  have htotal : performance.totalReturn = 1 / 5 := by decide +kernel
  obtain ⟨-, -, -, hgain⟩ := calculatePerformance_coherent (fun x ↦ |x|) (fun x ↦ abs_nonneg x)
    ⟨100, snapshots, 0, 0, 0, 1, .fromEvents []⟩ (by norm_num) (by simp [snapshots])
  obtain ⟨hsharpe, -, hwin⟩ := hgain (by rw [htotal]; norm_num)
  exact ⟨htotal, hsharpe, hwin⟩

end Metrics

end Zaciraci.Simulate
