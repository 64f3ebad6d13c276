import Zaciraci.Trade.Period

namespace Zaciraci.Trade

open Lib Dex Zaciraci.Path Persistence Storage

structure PricePoint where
  timestamp : Time
  price : BigDecimal

/-- A token with numbers of the type `F`, which is that of `f64` or of the exact values. -/
structure TokenData (F : Type) where
  symbol : TokenAccount
  currentRate : ExchangeRate
  historicalVolatility : F
  liquidityScore : Option F
  marketCap : Option BigDecimal

structure PortfolioData (F : Type) where
  tokens : List (TokenData F)
  predictions : SortedMap TokenAccount BigDecimal
  historicalPrices : SortedMap TokenAccount (List PricePoint)
  predictionConfidences : SortedMap TokenAccount F

structure WalletInfo where
  holdings : SortedMap TokenAccount TokenAmount
  totalValue : BigDecimal
  cashBalance : BigDecimal

/-- The numerical part of the strategy. Each function computes its result from its arguments
and the configuration alone. -/
structure Analysis where
  volatility : List PricePoint → Option Float
  liquidityScore : List PricePoint → Except String U128 → Float
  expectedReturn : BigDecimal → BigDecimal → Float
  confidence : List PredictionRecord → List TokenAccount → SortedMap TokenAccount Float
  optimize : WalletInfo → PortfolioData Float → Float → Except String (List TradingAction)

/-- What a pool holds of one token, in NEAR. A token without a rate is not counted. -/
def sideValue (wnear : TokenAccount) (rates : SortedMap TokenAccount ExchangeRate)
    (token : TokenAccount) (amount : ℕ) : Option BigDecimal :=
  if token = wnear then some (BigDecimal.div amount yoctoPerNear)
  else (rates.get token).map fun rate ↦
    if rate.isEffectivelyZero then 0 else TokenAmount.value ⟨amount, rate.decimals⟩ rate

def estimatePoolLiquidityInNear (pool : PoolInfo) (wnear : TokenAccount)
    (rates : SortedMap TokenAccount ExchangeRate) : Option BigDecimal :=
  (pool.tokenAccountIds.zipIdx.filterMap fun entry ↦
    sideValue wnear rates entry.1 ((pool.amounts[entry.2]?).getD 0).toNat).min?

def filterPoolsByLiquidity (pools : PoolInfoList) (wnear : TokenAccount)
    (minLiquidity : BigDecimal) (rates : SortedMap TokenAccount ExchangeRate) : PoolInfoList :=
  .new (pools.list.filter fun pool ↦
    match estimatePoolLiquidityInNear pool wnear rates with
    | some liquidity => minLiquidity ≤ liquidity
    | none => false)

def applyLiquidityFilterAndSelect (setting : Setting) (tokens : List TokenAccount)
    (pools : PoolInfoList) (latestRates : SortedMap TokenAccount ExchangeRate)
    (minLiquidity : BigDecimal) (limit : Option ℕ) : Outcome String (List TokenAccount) := do
  let filteredPools := filterPoolsByLiquidity pools setting.wnear minLiquidity latestRates
  let (buyable, _) ← updatedGraph setting filteredPools setting.wnear
    "Failed to build token graph: "
  let filtered := tokens.filter (· ∈ buyable)
  let selected := match limit with
    | some n => filtered.take n
    | none => filtered
  if selected = [] then
    .err s!"No tokens with sufficient liquidity after filtering {tokens.length} volatility tokens"
  else .ok selected

def priceHistoryStart (endDate : Time) (cfg : ConfigAccess) : Time :=
  endDate - cfg.tradePriceHistoryDays.toNat * day

def selectVolatilityTokensInner (setting : Setting) (endDate : Time) (cfg : ConfigAccess)
    (limit : Option ℕ) : TradeProgram (List TokenAccount) := do
  let tokens ← withContext "Failed to get volatility tokens from database"
    (query (.byVolatilityInTimeRange (priceHistoryStart endDate cfg) endDate setting.wnear))
  if tokens = [] then .fail "No volatility tokens returned from prediction service"
  else
    let pools ← readPools
    let latestRates ← query (.allLatestRates setting.wnear)
    .ofOutcome (applyLiquidityFilterAndSelect setting tokens pools latestRates
      cfg.tradeMinPoolLiquidity.toNat limit)

def selectTopVolatilityTokens (setting : Setting) (endDate : Time) (cfg : ConfigAccess) :
    TradeProgram (List TokenAccount) :=
  selectVolatilityTokensInner setting endDate cfg (some cfg.tradeTopTokens.toNat)

def batchPredictions (records : List PredictionRecord) : SortedMap TokenAccount BigDecimal :=
  records.foldl (fun predictions r ↦
    match parseToken r.token with
    | .ok token => predictions.insert token r.predictedPrice
    | .error _ => predictions) .empty

structure TokenHistory where
  token : TokenAccount
  prices : List PricePoint
  currentPrice : BigDecimal
  predictedPrice : BigDecimal
  volatility : Float

def getPriceHistory (setting : Setting) (token : TokenAccount) (startDate endDate : Time) :
    TradeProgram (List PricePoint) := do
  let rates ← withContext "Failed to get price history from database"
    (query (.ratesInTimeRange startDate endDate token setting.wnear))
  pure ((TokenRate.toSpotRates rates).map fun spot ↦ ⟨spot.1, spot.2.toPrice⟩)

/-- The prices of a token. It is left out where there is no prediction or no price. -/
def loadHistory (setting : Setting) (analysis : Analysis)
    (predictions : SortedMap TokenAccount BigDecimal) (startDate endDate : Time)
    (token : TokenAccount) : TradeProgram (Option TokenHistory) :=
  match predictions.get token with
  | none => pure none
  | some predictedPrice => do
    let history ← (getPriceHistory setting token startDate endDate).attempt
    pure (do
      let prices ← history.toOption
      let current ← prices.getLast?
      let volatility ← analysis.volatility prices
      some ⟨token, prices, current.price, predictedPrice, volatility⟩)

def estimateMarketCap (totalSupply : Except String BigDecimal) (price : BigDecimal)
    (decimals : ℕ) : BigDecimal :=
  let supply := totalSupply.toOption.getD (10 ^ 24)
  if price = 0 then 10000 else BigDecimal.div supply (10 ^ decimals) * price

def measureToken (analysis : Analysis) (client : Client) (history : TokenHistory) :
    TradeProgram (Option (TokenHistory × TokenData Float)) := do
  let poolBalance ← .perform (.chain client (.ftBalanceOf history.token))
  match ← (getTokenDecimalsCached client history.token).attempt with
  | .error _ => pure none
  | .ok decimals =>
    let totalSupply ← .perform (.chain client (.ftTotalSupply history.token))
    pure (some (history, {
      symbol := history.token
      currentRate := .fromPrice history.currentPrice decimals
      historicalVolatility := history.volatility
      liquidityScore := some (analysis.liquidityScore history.prices poolBalance)
      marketCap := some (estimateMarketCap totalSupply history.currentPrice decimals) }))

def maxPredictionQueryLimit : ℤ := 10000

def calculatePerTokenConfidence (analysis : Analysis) (tokens : List TokenAccount)
    (cfg : ConfigAccess) : TradeProgram (SortedMap TokenAccount Float) := do
  let limit := min (max cfg.predictionAccuracyWindow 1 * tokens.length) maxPredictionQueryLimit
  let records ← query (.recentEvaluatedForTokens limit tokens)
  pure (analysis.confidence records tokens)

structure PortfolioStrategyParams where
  tokens : List TokenAccount
  availableFunds : ℕ
  isNewPeriod : Bool
  periodId : String
  endDate : Time

/-- The holdings of the wallet: none in a new period, else those of the last snapshot. -/
def walletInfo (setting : Setting) (client : Client) (wallet : Wallet)
    (params : PortfolioStrategyParams) : TradeProgram WalletInfo :=
  if params.isNewPeriod then
    let total := BigDecimal.div params.availableFunds yoctoPerNear
    pure ⟨.empty, total, total⟩
  else do
    let holdings ← getHoldingsFromDb params.periodId
    let balances ← (match holdings with
      | some balances => pure balances
      | none => getCurrentPortfolioBalances client wallet
          (ensureWnearIncluded setting.wnear params.tokens))
    let totalValue ← calculateTotalPortfolioValue setting balances
    let cashBalance := match balances.get setting.wnear with
      | some amount => amount.value .wnear
      | none => 0
    let positions := balances.entries.foldl (fun positions entry ↦
      if entry.1 = setting.wnear ∨ entry.2.isZero then positions
      else positions.insert entry.1 entry.2) .empty
    pure ⟨positions, totalValue, cashBalance⟩

def isConfident (cfg : ConfigAccess) (confidences : SortedMap TokenAccount Float)
    (token : TokenAccount) : Bool :=
  match confidences.get token with
  | some c => cfg.tradeMinTokenConfidence ≤ c
  | none => true

def byToken {V : Type} (measured : List (TokenHistory × TokenData Float)) (f : TokenHistory → V) :
    SortedMap TokenAccount V :=
  measured.foldl (fun m t ↦ m.insert t.1.token (f t.1)) .empty

/-- The data of the tokens that remain after the ones with little confidence are left out. -/
def portfolioData (cfg : ConfigAccess) (measured : List (TokenHistory × TokenData Float))
    (confidences : SortedMap TokenAccount Float) : PortfolioData Float :=
  let tokens := (measured.map Prod.snd).filter fun t ↦ isConfident cfg confidences t.symbol
  let remains (token : TokenAccount) : Bool := token ∈ tokens.map TokenData.symbol
  { tokens
    predictions := (byToken measured TokenHistory.predictedPrice).filter remains
    historicalPrices := (byToken measured TokenHistory.prices).filter remains
    predictionConfidences := confidences.filter remains }

def expectedReturnsOf (analysis : Analysis) (measured : List (TokenHistory × TokenData Float)) :
    ExpectedReturns :=
  byToken measured fun history ↦
    analysis.expectedReturn history.currentPrice history.predictedPrice

def executePortfolioStrategy (setting : Setting) (analysis : Analysis) (client : Client)
    (wallet : Wallet) (params : PortfolioStrategyParams) (cfg : ConfigAccess) :
    TradeProgram (List TradingAction × ExpectedReturns) := do
  let records ← query (.latestFreshPredictions params.tokens params.endDate)
  let predictions := batchPredictions records
  if predictions.entries.isEmpty then .fail "No fresh predictions available"
  else
    let startDate := priceHistoryStart params.endDate cfg
    let histories ← params.tokens.mapM'
      (loadHistory setting analysis predictions startDate params.endDate)
    let results ← histories.reduceOption.mapM' (measureToken analysis client)
    let measured := results.reduceOption
    if measured.isEmpty then .fail "Failed to process any tokens for portfolio strategy"
    else
      match ← (calculatePerTokenConfidence analysis (measured.map (·.2.symbol)) cfg).attempt with
      | .error _ => pure ([.hold], .empty)
      | .ok confidences =>
        let data := portfolioData cfg measured confidences
        if data.tokens.isEmpty then pure ([.hold], .empty)
        else
          let info ← walletInfo setting client wallet params
          let actions ← .ofExcept
            (analysis.optimize info data cfg.portfolioRebalanceThreshold)
          pure (actions, expectedReturnsOf analysis measured)

def prepareFunds (setting : Setting) (client : Client) (wallet : Wallet) (cfg : ConfigAccess) :
    TradeProgram ℕ := do
  let targetInvestment := nearToYocto cfg.tradeInitialInvestment
  let balance ← Balances.start setting.isMainnet client wallet setting.wnear
    (some targetInvestment) cfg
  let availableFunds := min balance targetInvestment
  if availableFunds = 0 then
    .fail s!"Insufficient wrap.near balance for trading: {balance} yoctoNEAR"
  else pure availableFunds

/-- What a new period can invest. One that goes on needs no funds. -/
def fundsOf (setting : Setting) (client : Client) (wallet : Wallet) (cfg : ConfigAccess)
    (period : EvaluationPeriodResult) : TradeProgram ℕ :=
  if period.isNewPeriod then
    match period.liquidatedBalance with
    | some balance => pure balance
    | none => prepareFunds setting client wallet cfg
  else pure 0

def selectTokens (setting : Setting) (currentTime : Time) (cfg : ConfigAccess)
    (period : EvaluationPeriodResult) : TradeProgram (List TokenAccount) :=
  if period.isNewPeriod then do
    let tokens ← selectTopVolatilityTokens setting currentTime cfg
    let stored := (query (.updateSelectedTokens period.periodId (tokens.map toString))).attempt
    (do let _ ← stored).when (tokens ≠ [])
    pure tokens
  else pure period.existingTokens

def tradeTokens (setting : Setting) (analysis : Analysis) (client : Client) (wallet : Wallet)
    (currentTime : Time) (cfg : ConfigAccess) (period : EvaluationPeriodResult)
    (availableFunds : ℕ) (tokens : List TokenAccount) : TradeProgram (List TradingAction) := do
  ensureRefStorageSetup client wallet tokens (keepWithPortfolio setting.isMainnet tokens)
    (maxTopUpFromConfig cfg)
  (Balances.depositWrapNearToRef setting.isMainnet client wallet availableFunds cfg).when
    period.isNewPeriod
  let (actions, expectedReturns) ← executePortfolioStrategy setting analysis client wallet
    ⟨tokens, availableFunds, period.isNewPeriod, period.periodId, currentTime⟩ cfg
  let _ ← executeTradingActions setting client wallet actions period.periodId cfg expectedReturns
  let _ ← (recordPortfolioHoldings setting client wallet period.periodId tokens
    currentTime).attempt
  pure actions

def tradePeriod (setting : Setting) (analysis : Analysis) (client : Client) (wallet : Wallet)
    (currentTime : Time) (cfg : ConfigAccess) (period : EvaluationPeriodResult) :
    TradeProgram (List TradingAction) := do
  if period.periodId = "" then pure []
  else if cfg.tradeEnabled = false then
    (do let _ ← liquidateAllPositions setting client wallet cfg).when
      (period.isNewPeriod = false)
    pure []
  else
    let availableFunds ← fundsOf setting client wallet cfg period
    if period.isNewPeriod ∧ availableFunds = 0 then pure []
    else
      .ofExcept (← .perform .newPredictionService)
      let tokens ← selectTokens setting currentTime cfg period
      if tokens = [] then pure []
      else tradeTokens setting analysis client wallet currentTime cfg period availableFunds tokens

/-- A trading cycle, with the actions it decided on. -/
def tradeCycle (setting : Setting) (analysis : Analysis) (client : Client) (wallet : Wallet)
    (currentTime : Time) (cfg : ConfigAccess) : TradeProgram (List TradingAction) := do
  let period ← manageEvaluationPeriod setting client wallet currentTime 0 cfg
  tradePeriod setting analysis client wallet currentTime cfg period

def start (setting : Setting) (analysis : Analysis) (client : Client) (wallet : Wallet)
    (currentTime : Time) (cfg : ConfigAccess) : TradeProgram Unit := do
  let _ ← tradeCycle setting analysis client wallet currentTime cfg

section Uses

open Program Request

variable {client : Client} {wallet : Wallet} {now : Time} {setting : Setting}
  {analysis : Analysis} {cfg : ConfigAccess} {period : EvaluationPeriodResult}

theorem uses_selectTokens :
    (selectTokens setting now cfg period).Uses (Trading client wallet now setting.wnear) := by
  refine Uses.ite (Uses.bind ?_ fun tokens ↦ ?_) trivial
  · refine (uses_withContext (uses_query ⟨trivial, le_refl now, trivial⟩)).bind fun tokens ↦
      Uses.ite trivial ?_
    exact uses_readPools.bind fun _ ↦ (uses_query ⟨trivial, rfl, trivial⟩).bind fun _ ↦ trivial
  · exact Uses.bind (Uses.when
      ((uses_query ⟨trivial, trivial, trivial⟩).attempt.bind fun _ ↦ trivial)) fun _ ↦ trivial

theorem uses_loadHistory {predictions : SortedMap TokenAccount BigDecimal} {startDate : Time}
    {token : TokenAccount} :
    (loadHistory setting analysis predictions startDate now token).Uses
      (Trading client wallet now setting.wnear) := by
  rw [loadHistory]
  split
  · trivial
  · refine Uses.bind (Uses.attempt ?_) fun _ ↦ trivial
    exact (uses_withContext (uses_query ⟨trivial, le_refl now, trivial⟩)).bind fun _ ↦ trivial

theorem uses_measureToken {history : TokenHistory} {wnear : TokenAccount} :
    (measureToken analysis client history).Uses (Trading client wallet now wnear) := by
  refine (uses_perform ⟨rfl, trivial, trivial⟩).bind fun _ ↦
    uses_getTokenDecimalsCached.attempt.bind fun decimals ↦ ?_
  cases decimals with
  | error e => trivial
  | ok decimals => exact (uses_perform ⟨rfl, trivial, trivial⟩).bind fun _ ↦ trivial

theorem uses_walletInfo {params : PortfolioStrategyParams} :
    (walletInfo setting client wallet params).Uses (Trading client wallet now setting.wnear) := by
  refine Uses.ite trivial (uses_getHoldingsFromDb.bind fun holdings ↦ Uses.bind ?_ fun _ ↦ ?_)
  · cases holdings with
    | some balances => trivial
    | none => exact uses_getCurrentPortfolioBalances
  · exact uses_calculateTotalPortfolioValue.bind fun _ ↦ trivial

theorem uses_executePortfolioStrategy {tokens : List TokenAccount} {funds : ℕ}
    {isNewPeriod : Bool} {periodId : String} :
    (executePortfolioStrategy setting analysis client wallet
      ⟨tokens, funds, isNewPeriod, periodId, now⟩ cfg).Uses
      (Trading client wallet now setting.wnear) := by
  refine (uses_query ⟨trivial, le_refl now, trivial⟩).bind fun records ↦ Uses.ite trivial ?_
  refine (uses_mapM (fun _ ↦ uses_loadHistory) _).bind fun histories ↦ ?_
  refine (uses_mapM (fun _ ↦ uses_measureToken) _).bind fun results ↦ Uses.ite trivial ?_
  refine Uses.bind (Uses.attempt ?_) fun confidences ↦ ?_
  · exact (uses_query ⟨trivial, trivial, trivial⟩).bind fun _ ↦ trivial
  · cases confidences with
    | error e => trivial
    | ok confidences =>
      refine Uses.ite trivial (uses_walletInfo.bind fun info ↦ ?_)
      exact (uses_ofExcept _).bind fun _ ↦ trivial

theorem uses_fundsOf :
    (fundsOf setting client wallet cfg period).Uses (Trading client wallet now setting.wnear) := by
  refine Uses.ite ?_ trivial
  split
  · trivial
  · exact uses_start.bind fun _ ↦ Uses.ite trivial trivial

theorem uses_tradeTokens {funds : ℕ} {tokens : List TokenAccount} :
    (tradeTokens setting analysis client wallet now cfg period funds tokens).Uses
      (Trading client wallet now setting.wnear) := by
  refine uses_ensureRefStorageSetup.bind fun _ ↦ ?_
  refine (Uses.when uses_depositWrapNearToRef).bind fun _ ↦ ?_
  refine uses_executePortfolioStrategy.bind fun strategy ↦ ?_
  refine uses_executeTradingActions.bind fun _ ↦ ?_
  exact uses_recordPortfolioHoldings.attempt.bind fun _ ↦ trivial

/-- Apart from the end of a period, a cycle stays with the client and the wallet it was
given. -/
theorem uses_tradePeriod :
    (tradePeriod setting analysis client wallet now cfg period).Uses
      (Trading client wallet now setting.wnear) := by
  refine Uses.ite trivial (Uses.ite ?_ (uses_fundsOf.bind fun funds ↦ Uses.ite trivial ?_))
  · exact Uses.bind (Uses.when (uses_liquidateAllPositions.bind fun _ ↦ trivial)) fun _ ↦ trivial
  · refine (uses_perform ⟨trivial, trivial, trivial⟩).bind fun _ ↦ (uses_ofExcept _).bind fun _ ↦ ?_
    exact uses_selectTokens.bind fun tokens ↦ Uses.ite trivial uses_tradeTokens

end Uses

end Zaciraci.Trade
