import Zaciraci.Simulate.LookAhead
import Zaciraci.Simulate.Report

namespace Zaciraci.Simulate

open Lib Persistence PortfolioState
open Trade (Request SwapAction hour second tradeCycle)

variable {γ : Type} {C : ℤ}

section Cycle

def swapCall (sim : SimulationClient) (w : World γ) (actions : List SwapAction)
    (first last : SwapAction) : PortfolioState.Call :=
  let amountIn := first.amountIn.getD 0
  .swap first.tokenIn amountIn last.tokenOut
    (calculateSwapOutput sim w actions first.tokenIn amountIn last.tokenOut).1
    (decimalsFor w last.tokenOut)

def Admitted (sim : SimulationClient) : Request → World γ → Prop
  | .chain .given (.exec ⟨_, .swap actions, _⟩), w =>
    ∀ first ∈ actions.head?, ∀ last ∈ actions.getLast?,
      w.portfolio.Admits sim.wnear (swapCall sim w actions first last)
  | _, _ => True

instance (sim : SimulationClient) (q : Request) (w : World γ) : Decidable (Admitted sim q w) := by
  unfold Admitted
  split <;> infer_instance

variable {sim : SimulationClient} {w : World γ}

theorem handleSwap_balanced {actions : List SwapAction} (h : w.portfolio.Balanced C)
    (hadmits : ∀ first ∈ actions.head?, ∀ last ∈ actions.getLast?,
      w.portfolio.Admits sim.wnear (swapCall sim w actions first last)) :
    (handleSwap sim w actions).2.portfolio.Balanced C := by
  rw [handleSwap]
  split
  · next first last hfirst hlast =>
    have hafter := perform_balanced h (hadmits first hfirst last hlast)
    dsimp only
    split_ifs
    · exact h
    · exact h
    · rw [swapCall, perform] at hafter
      split
      · exact h
      · next swapped portfolio hswap =>
        rw [hswap] at hafter
        exact ⟨hafter.cash, ⟨hafter.positions.holdings, hafter.positions.costBasis⟩, hafter.total,
          hafter.byToken⟩
  · exact h

theorem answer_balanced (outside : Outside γ) {q : Request} (hq : Admitted sim q w)
    (h : w.portfolio.Balanced C) : (answer sim outside q w).2.portfolio.Balanced C := by
  cases q with
  | chain client q =>
    cases client with
    | standard => exact h
    | given =>
      cases q with
      | exec tx =>
        obtain ⟨signer, call, deposit⟩ := tx
        cases call with
        | swap actions => exact handleSwap_balanced h hq
        | storage method => cases method <;> exact h
        | _ => exact h
      | _ => exact h
  | _ => exact h

/-- The cycles of the days, one after the other from `w`, do not panic and make only such swaps. -/
def Cycles.Regular (cycles : Cycles γ) (initialNative : BigDecimal) : List Time → World γ → Prop
  | [], _ => True
  | t :: days, w =>
    let sim : SimulationClient := ⟨cycles.setting.wnear, initialNative, t⟩
    (tradeCycle cycles.setting cycles.analysis .given simulationWallet t cycles.cfg).Meets
        (answer sim cycles.outside) (Admitted sim) w ∧
      ¬ (cycles.run initialNative t w).outcome.Panics ∧
      cycles.Regular initialNative days (cycles.run initialNative t w).state

instance decidableRegular (cycles : Cycles γ) (initialNative : BigDecimal) :
    ∀ (days : List Time) (w : World γ), Decidable (cycles.Regular initialNative days w)
  | [], _ => inferInstanceAs (Decidable True)
  | t :: days, w =>
    have := decidableRegular cycles initialNative days (cycles.run initialNative t w).state
    inferInstanceAs (Decidable (_ ∧ ¬ _ ∧ _))

variable {cycles : Cycles γ} {initialNative : BigDecimal} {days : List Time}

theorem Cycles.Regular.balanced (hregular : cycles.Regular initialNative days w)
    (h : w.portfolio.Balanced C) :
    (days.foldl (fun w t ↦ (cycles.run initialNative t w).state) w).portfolio.Balanced C := by
  induction days generalizing w with
  | nil => exact h
  | cons t days ih =>
    exact ih hregular.2.2 (hregular.1.preserves (fun q s ↦ answer_balanced cycles.outside) h)

theorem foldl_day {s : Simulation γ} (hregular : cycles.Regular initialNative days s.world) :
    ∃ s' : Simulation γ,
      days.foldl (fun o t ↦ Simulation.day cycles initialNative t o) (.ok s) = .ok s' ∧
      s'.world = days.foldl (fun w t ↦ (cycles.run initialNative t w).state) s.world ∧
      s'.trades = s.trades ∧ s'.snapshots.length = s.snapshots.length + days.length := by
  induction days generalizing s with
  | nil => exact ⟨s, rfl, rfl, rfl, rfl⟩
  | cons t days ih =>
    obtain ⟨-, hpanics, hrest⟩ := hregular
    obtain ⟨next, hnext, hworld, htrades, hlength⟩ : ∃ next : Simulation γ,
        Simulation.day cycles initialNative t (.ok s) = .ok next ∧
        next.world = (cycles.run initialNative t s.world).state ∧ next.trades = s.trades ∧
        next.snapshots.length = s.snapshots.length + 1 := by
      rw [Simulation.day, Outcome.ok_bind]
      dsimp only
      split
      · next houtcome => exact absurd (houtcome ▸ trivial) hpanics
      · exact ⟨_, rfl, rfl, rfl, by rw [List.length_append, List.length_singleton]⟩
    obtain ⟨s', hs', hworld', htrades', hlength'⟩ := ih (hworld ▸ hrest)
    refine ⟨s', ?_, ?_, htrades'.trans htrades, ?_⟩
    · rw [List.foldl_cons, hnext, hs']
    · rw [hworld', hworld, List.foldl_cons]
    · rw [hlength', hlength, List.length_cons]
      omega

end Cycle

section Liquidation

variable {rates : TokenAccount → Option ExchangeRate} {state : PortfolioState} {simDay : Time}
  {positions : List (TokenAccount × TokenAmount)}

theorem holdings_liquidateToken {position : TokenAccount × TokenAmount}
    (hsold : tokenAmountToYocto rates position.1 position.2 ≠ 0) :
    (state.liquidateToken rates position).holdings = state.holdings.erase position.1 := by
  simp only [liquidateToken, if_neg hsold]
  rfl

theorem mem_keys_liquidate
    (hsold : ∀ p ∈ positions, tokenAmountToYocto rates p.1 p.2 ≠ 0) {token : TokenAccount}
    (hmem : token ∈ (positions.foldl (liquidateToken rates) state).holdings.keys) :
    token ∈ state.holdings.keys ∧ token ∉ positions.map Prod.fst := by
  induction positions generalizing state with
  | nil => exact ⟨hmem, List.not_mem_nil⟩
  | cons p positions ih =>
    rw [List.forall_mem_cons] at hsold
    obtain ⟨hkey, hrest⟩ := ih hsold.2 hmem
    rw [holdings_liquidateToken hsold.1, SortedMap.mem_keys_erase] at hkey
    refine ⟨hkey.2, ?_⟩
    rw [List.map_cons, List.mem_cons, not_or]
    exact ⟨hkey.1, hrest⟩

theorem filter_holdings (h : state.Positions) :
    state.holdings.entries.filter (fun p ↦ !p.2.isZero) = state.holdings.entries := by
  refine List.filter_eq_self.2 fun p hp ↦ ?_
  obtain ⟨n, hn, hunits⟩ := h.holdings p.1 p.2 (SortedMap.get_eq_some.2 hp)
  have hne : (n : ℚ) ≠ 0 := by exact_mod_cast hn.ne'
  rw [TokenAmount.isZero, hunits, decide_eq_false hne]
  rfl

theorem entries_liquidateAll (h : state.Positions)
    (hsold : ∀ p ∈ state.holdings.entries, tokenAmountToYocto rates p.1 p.2 ≠ 0) :
    (state.liquidateAll rates).holdings.entries = [] := by
  rw [liquidateAll, filter_holdings h]
  refine List.eq_nil_iff_forall_not_mem.2 fun e he ↦ ?_
  have hmem : e.1 ∈ (state.holdings.entries.foldl (liquidateToken rates) state).holdings.keys :=
    List.mem_map_of_mem he
  obtain ⟨hkey, hnot⟩ := mem_keys_liquidate hsold hmem
  exact hnot hkey

/-- When everything is sold, the portfolio is worth its cash, which is what it began with and
what was realised. -/
theorem value_liquidateAll {C : ℤ} (h : state.Balanced C) {wnear : TokenAccount}
    (hadmits : state.Admits wnear (.liquidateAll rates))
    (hsold : ∀ p ∈ state.holdings.entries, tokenAmountToYocto rates p.1 p.2 ≠ 0) :
    (state.liquidateAll rates).calculateTotalValueNear rates =
      C / yoctoPerNear + pnlToNear (state.liquidateAll rates).realizedPnl := by
  have hbalanced : (state.liquidateAll rates).Balanced C :=
    liquidateAll_balanced h hadmits.1 hadmits.2
  have hempty := entries_liquidateAll h.positions hsold
  have hbasis : (state.liquidateAll rates).costBasis.total = 0 := by
    have hnone : (state.liquidateAll rates).costBasis.entries = [] := by
      refine List.eq_nil_iff_forall_not_mem.2 fun e he ↦ ?_
      have hkey := (hbalanced.positions.costBasis e.1 e.2 (SortedMap.get_eq_some.2 he)).2
      rw [SortedMap.keys, hempty] at hkey
      exact List.not_mem_nil hkey
    rw [SortedMap.total, hnone]
    rfl
  have hcash := hbalanced.total
  rw [hbasis, add_zero] at hcash
  rw [calculateTotalValueNear, hempty, List.foldl_nil, hcash, pnlToNear, add_div]

theorem length_liquidationRecords
    (hsold : ∀ p ∈ positions, tokenAmountToYocto rates p.1 p.2 ≠ 0) :
    (state.liquidationRecords rates simDay positions).length = positions.length := by
  induction positions generalizing state with
  | nil => rfl
  | cons p positions ih =>
    rw [List.forall_mem_cons] at hsold
    rw [liquidationRecords, List.length_append, ih hsold.2, liquidationRecord, if_neg hsold.1,
      Option.toList_some, List.length_singleton, List.length_cons, add_comm]

theorem action_liquidationRecords :
    ∀ t ∈ state.liquidationRecords rates simDay positions, t.action = .liquidation := by
  induction positions generalizing state with
  | nil => exact fun t ht ↦ absurd ht List.not_mem_nil
  | cons p positions ih =>
    intro t ht
    rw [liquidationRecords, List.mem_append] at ht
    obtain ht | ht := ht
    · rw [liquidationRecord, Option.mem_toList] at ht
      dsimp only at ht
      split at ht
      · cases ht
      · cases ht
        rfl
    · exact ih t ht

theorem finalBalanceNear_concat (sqrt : ℚ → ℚ) {input : PerformanceInput}
    {snapshots : List Snapshot} {last : Snapshot} (h : input.snapshots = snapshots ++ [last]) :
    (calculatePerformance sqrt input).finalBalanceNear = last.totalValueNear := by
  simp [calculatePerformance, h]

theorem calculatePerformance_counts (sqrt : ℚ → ℚ) (input : PerformanceInput) :
    (calculatePerformance sqrt input).totalRealizedPnlNear = pnlToNear input.realizedPnl ∧
      (calculatePerformance sqrt input).tradeCount = input.tradeCount ∧
      (calculatePerformance sqrt input).liquidationCount = input.liquidationCount ∧
      (calculatePerformance sqrt input).swapStats = input.swapStats := by
  rw [calculatePerformance]
  split <;> exact ⟨rfl, rfl, rfl, rfl⟩

/-- The report on a portfolio that had no trades before everything was sold. -/
theorem fromState_liquidate (sqrt : ℚ → ℚ) {args : ReportArgs} {s : Simulation γ} {C : ℤ}
    {wnear : TokenAccount} {endDay : Time} (hC : args.initialCapital * yoctoPerNear = C)
    (htrades : s.trades = []) (h : s.world.portfolio.Balanced C)
    (hadmits : s.world.portfolio.Admits wnear
      (.liquidateAll (Simulation.rates wnear s.world endDay)))
    (hsold : ∀ p ∈ s.world.portfolio.holdings.entries,
      tokenAmountToYocto (Simulation.rates wnear s.world endDay) p.1 p.2 ≠ 0) :
    let result := SimulationResult.fromState sqrt args (s.liquidate wnear endDay)
    result.performance.finalBalanceNear =
        args.initialCapital + result.performance.totalRealizedPnlNear ∧
      (result.portfolioValues.map (·.dailyPnlNear)).sum =
        result.performance.totalRealizedPnlNear ∧
      result.performance.tradeCount = 0 ∧
      result.performance.liquidationCount = s.world.portfolio.holdings.size := by
  intro result
  set rates := Simulation.rates wnear s.world endDay
  set records := s.world.portfolio.liquidationRecords rates endDay
    (s.world.portfolio.holdings.entries.filter fun p ↦ !p.2.isZero) with hrecords
  have hall : ∀ t ∈ records, t.action = .liquidation := action_liquidationRecords
  have hlength : records.length = s.world.portfolio.holdings.size := by
    rw [hrecords, filter_holdings h.positions, length_liquidationRecords hsold]
    rfl
  have hlast : (s.liquidate wnear endDay).snapshots = s.snapshots ++
    [(s.world.portfolio.liquidateAll rates).snapshot rates endDay] := rfl
  have htraded : (s.liquidate wnear endDay).trades = records := by
    change s.trades ++ records = records
    rw [htrades, List.nil_append]
  obtain ⟨hrealized, htradeCount, hliquidations, -⟩ := calculatePerformance_counts sqrt
    (SimulationResult.performanceInput args (s.liquidate wnear endDay))
  have hcapital : (C : ℚ) / yoctoPerNear = args.initialCapital := by
    rw [← hC]
    exact mul_div_cancel_right₀ _ (by norm_num [yoctoPerNear])
  have hvalue := value_liquidateAll h hadmits hsold
  rw [hcapital] at hvalue
  have hbalance : result.performance.finalBalanceNear =
      args.initialCapital + result.performance.totalRealizedPnlNear :=
    (finalBalanceNear_concat sqrt hlast).trans (hvalue.trans (congrArg _ hrealized.symm))
  refine ⟨hbalance, ?_, ?_, ?_⟩
  · refine (sum_dailyPnlNear _ _).trans ?_
    rw [hlast, List.getLast?_concat, Option.map_some, Option.getD_some, sub_eq_iff_eq_add']
    exact hvalue.trans (congrArg _ hrealized.symm)
  · refine htradeCount.trans ?_
    dsimp only [SimulationResult.performanceInput]
    rw [htraded, List.countP_eq_zero]
    intro t ht
    simp [hall t ht]
  · refine hliquidations.trans ?_
    dsimp only [SimulationResult.performanceInput]
    rw [htraded, ← hlength, List.countP_eq_length]
    intro t ht
    simp [hall t ht]

end Liquidation

section Report

/-- If the cycles of a run are regular and everything that is held at the end can be sold, the
report says that the portfolio ends with its capital and what was realised, and so do its daily
values. It has one value for each day and one for the end, counts nothing but liquidations, and
every swap was estimated in one of the two ways. -/
theorem report_settled (sqrt : ℚ → ℚ) (cycles : Cycles γ) (env : ℤ → DayEnv)
    (args : ReportArgs) (hdates : args.startDate < args.endDate)
    (hgenerate : args.generatePredictions = false) (hinterval : 0 < args.rebalanceIntervalDays)
    (table : PredictionTable) (w : World γ) (C : ℤ) (hC : args.initialCapital * yoctoPerNear = C)
    (last : World γ)
    (hlast : last = (simulationDays args.toRunArgs table).foldl
      (fun w t ↦ (cycles.run C t w).state) (Simulation.opening env args table w))
    (hregular : cycles.Regular C (simulationDays args.toRunArgs table)
      (Simulation.opening env args table w))
    (hadmits : last.portfolio.Admits cycles.setting.wnear (.liquidateAll
      (Simulation.rates cycles.setting.wnear last (midnight args.endDate + 86399 * second))))
    (hsold : ∀ p ∈ last.portfolio.holdings.entries, tokenAmountToYocto
      (Simulation.rates cycles.setting.wnear last (midnight args.endDate + 86399 * second))
      p.1 p.2 ≠ 0) :
    ∃ result, Simulation.report sqrt cycles env args table w = some (.ok result) ∧
      result.performance.finalBalanceNear =
        args.initialCapital + result.performance.totalRealizedPnlNear ∧
      (result.portfolioValues.map (·.dailyPnlNear)).sum =
        result.performance.totalRealizedPnlNear ∧
      result.portfolioValues.length = (simulationDays args.toRunArgs table).length + 1 ∧
      result.performance.tradeCount = 0 ∧
      result.performance.liquidationCount = last.portfolio.holdings.size ∧
      result.performance.swapStats.poolBasedSwaps + result.performance.swapStats.fallbackSwaps =
        result.swapEvents.length ∧
      result.performance.swapStats.fallbackRate * result.swapEvents.length =
        result.performance.swapStats.fallbackSwaps := by
  set start : Simulation γ := ⟨Simulation.opening env args table w, [], []⟩ with hstart
  obtain ⟨final, hfinal, hworld, htrades, hlength⟩ := foldl_day (s := start) hregular
  have hrun := runSimulation_eq env w.db hdates hgenerate hinterval table
    (Simulation.day cycles C)
    (fun endDay o ↦ do return (← o).liquidate cycles.setting.wnear endDay) (.ok start)
  rw [hfinal] at hrun
  replace hworld : final.world = last := hworld.trans hlast.symm
  have hbalanced : final.world.portfolio.Balanced C := by
    rw [hworld, hlast]
    refine hregular.balanced ?_
    rw [Simulation.opening, hC]
    exact balanced_new C
  rw [← hworld] at hadmits hsold ⊢
  obtain ⟨hbalance, hdaily, htradeCount, hliquidations⟩ :=
    fromState_liquidate sqrt hC htrades hbalanced hadmits hsold
  refine ⟨_, ?_, hbalance, hdaily, ?_, htradeCount, hliquidations, ?_⟩
  · simp only [Simulation.report, hC, ← hstart]
    rw [hrun]
    rfl
  · refine (length_portfolioValues _ _).trans ?_
    rw [Simulation.liquidate, List.length_append, hlength, List.length_nil, zero_add,
      List.length_singleton]
  · obtain ⟨-, -, -, hstats⟩ := calculatePerformance_counts sqrt
      (SimulationResult.performanceInput args (final.liquidate cycles.setting.wnear
        (midnight args.endDate + 86399 * second)))
    dsimp only [SimulationResult.fromState]
    rw [hstats, List.length_map]
    exact SwapStats.fromEvents_partition _

def quotedWorld : World Unit :=
  let token : TokenAccount := ⟨"token.near"⟩
  let rate (timestamp : Time) (rawRate : BigDecimal) : TokenRate :=
    ⟨token, wnearToken true, ⟨rawRate, 24⟩, timestamp, 0, none⟩
  let reserve : U128 := BitVec.ofNat 128 (1000 * 10 ^ 24)
  { db :=
      { poolInfo := [⟨Path.TokenGraph.twoTokenPool 0 (wnearToken true) token reserve reserve,
          9 * day⟩]
        tokenRates := [rate (7 * day) (10 ^ 24), rate (8 * day) (2 * 10 ^ 24),
          rate (9 * day) (10 ^ 24)]
        predictionRecords := []
        evaluationPeriods := []
        tradeTransactions := []
        portfolioHoldings := [] }
    portfolio := .new 0
    registered := .empty
    decimals := .empty
    lastHarvest _ := 0
    readings := 0
    chain := () }

def twoMornings : PredictionTable :=
  let row (id : ℤ) : DbPredictionRecord := .ofNew id ((9 + id) * day + hour)
    ⟨"token.near", "wrap.near", 2, (9 + id) * day, (10 + id) * day⟩
  ⟨[row 1, row 2], 3⟩

def buying : Cycles Unit where
  setting := ⟨true, .lists, 10⟩
  analysis :=
    { idleAnalysis with
      volatility := fun _ ↦ some 0
      optimize := fun _ _ _ ↦ .ok [.rebalance (SortedMap.empty.insert ⟨"token.near"⟩ 1)] }
  outside := twoDaysLater
  cfg := simulationConfig

def purchaseArgs : ReportArgs := ⟨⟨10, 12, 1, false⟩, 100, 10, 30, 0⟩

/-- The token is bought on the first day through the pool, and sold at the end at the rate. -/
theorem report_settled_purchase :
    ∃ result, Simulation.report id buying laterEnv purchaseArgs twoMornings quotedWorld =
        some (.ok result) ∧
      result.performance.finalBalanceNear = 100 + result.performance.totalRealizedPnlNear ∧
      result.portfolioValues.length = 3 ∧ result.performance.liquidationCount = 1 := by
  obtain ⟨result, hreport, hbalance, -, hlength, -, hcount, -⟩ := report_settled id buying laterEnv
    purchaseArgs (by decide) rfl (by decide) twoMornings quotedWorld (100 * 10 ^ 24)
    (by norm_num [purchaseArgs, yoctoPerNear]) _ rfl (by decide +kernel) (by decide +kernel)
    (by decide +kernel)
  refine ⟨result, hreport, hbalance, hlength.trans (by decide +kernel), hcount.trans ?_⟩
  decide +kernel

end Report

end Zaciraci.Simulate
