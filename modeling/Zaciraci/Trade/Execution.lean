import Mathlib.Data.List.Sort
import Zaciraci.Trade.Swap

namespace Zaciraci.Trade

open Lib Persistence Storage

inductive TradingAction
  | hold
  | sell (token target : TokenAccount)
  | switch (fromToken toToken : TokenAccount)
  | rebalance (targetWeights : SortedMap TokenAccount BigDecimal)
  | addPosition (token : TokenAccount) (weight : BigDecimal)
  | reducePosition (token : TokenAccount) (weight : BigDecimal)

abbrev ExpectedReturns := SortedMap TokenAccount Float

def buyPolicy (token : TokenAccount) (expectedReturns : ExpectedReturns) : SlippagePolicy :=
  match expectedReturns.get token with
  | some ratio => .fromExpectedReturn ratio
  | none => .unprotected

/-- Every position gets its share of the balance, and the last one what is left. -/
def allocateFrom (balance totalBps : ℕ) : ℕ → List (ℕ × ℕ) → List (ℕ × ℕ)
  | _, [] => []
  | allocated, [(idx, _)] => [(idx, balance - allocated)]
  | allocated, (idx, bps) :: rest =>
    let amount := if 0 < totalBps then
      balance / totalBps * bps + balance % totalBps * bps / totalBps else 0
    (idx, amount) :: allocateFrom balance totalBps (saturatingAdd allocated amount) rest

def allocateAddPositionAmounts (addPositions : List (ℕ × BigDecimal)) (balance : ℕ) :
    List (ℕ × ℕ) :=
  let totalWeight := (addPositions.map Prod.snd).sum
  let weightsBps := addPositions.map fun position ↦ (position.1,
    if totalWeight = 0 then 0
    else (BigDecimal.toU128 (BigDecimal.div position.2 totalWeight * 10000)).getD 0)
  allocateFrom balance (weightsBps.map Prod.snd).sum 0 weightsBps

def addPositionsOf (actions : List TradingAction) : List (ℕ × BigDecimal) :=
  actions.zipIdx.filterMap fun
    | (.addPosition _ weight, idx) => some (idx, weight)
    | _ => none

/-- How much each new position may spend, by the index of its action. -/
def precomputeAddPositionAmounts (setting : Setting) (client : Client) (wallet : Wallet)
    (actions : List TradingAction) : TradeProgram (List (ℕ × ℕ)) :=
  if addPositionsOf actions = [] then pure []
  else do
    let deposits ← getDeposits client wallet.accountId
    pure (allocateAddPositionAmounts (addPositionsOf actions)
      (depositOf deposits setting.wnear).toNat)

structure SellOperation where
  token : TokenAccount
  nearValue : BigDecimal
  exchangeRate : ExchangeRate

structure BuyOperation where
  token : TokenAccount
  nearValue : BigDecimal

structure DirectSwap where
  sellToken : TokenAccount
  buyToken : TokenAccount
  nearValue : BigDecimal
  sellExchangeRate : ExchangeRate

structure MatchResult where
  directSwaps : List DirectSwap
  remainingSells : List SellOperation
  remainingBuys : List BuyOperation

/-- What is left of the current operation, where something is, comes before the others. -/
def remainder {α : Type} (remaining : BigDecimal) (operation : α) (rest : List α) : List α :=
  if 0 < remaining then operation :: rest else rest

/-- The loop of the matching. In each round the smaller of the two remaining values is used up,
so that one side goes on to its next operation. -/
def matchOperations (directSwaps : List DirectSwap) (sell : SellOperation)
    (sellRemaining : BigDecimal) (sells : List SellOperation) (buy : BuyOperation)
    (buyRemaining : BigDecimal) (buys : List BuyOperation) : MatchResult :=
  let matched := min sellRemaining buyRemaining
  let directSwaps := if 0 < matched then
    directSwaps ++ [⟨sell.token, buy.token, matched, sell.exchangeRate⟩] else directSwaps
  let sellLeft := sellRemaining - matched
  let buyLeft := buyRemaining - matched
  if sellLeft = 0 then
    match sells with
    | [] => ⟨directSwaps, [], remainder buyLeft { buy with nearValue := buyLeft } buys⟩
    | nextSell :: sells =>
      if buyLeft = 0 then
        match buys with
        | [] => ⟨directSwaps, remainder nextSell.nearValue nextSell sells, []⟩
        | nextBuy :: buys =>
          matchOperations directSwaps nextSell nextSell.nearValue sells nextBuy
            nextBuy.nearValue buys
      else matchOperations directSwaps nextSell nextSell.nearValue sells buy buyLeft buys
  else
    match buys with
    | [] => ⟨directSwaps, remainder sellLeft { sell with nearValue := sellLeft } sells, []⟩
    | nextBuy :: buys =>
      matchOperations directSwaps sell sellLeft sells nextBuy nextBuy.nearValue buys
termination_by sells.length + buys.length

def matchSorted : List SellOperation → List BuyOperation → MatchResult
  | sell :: sells, buy :: buys =>
    matchOperations [] sell sell.nearValue sells buy buy.nearValue buys
  | sells, buys => ⟨[], sells, buys⟩

/-- The sorting of the source leaves the order of equal values open: this is one that it may
choose. -/
def matchRebalanceOperations (sellOperations : List SellOperation)
    (buyOperations : List BuyOperation) : MatchResult :=
  if sellOperations.isEmpty || buyOperations.isEmpty then ⟨[], sellOperations, buyOperations⟩
  else matchSorted (sellOperations.insertionSort fun a b ↦ b.nearValue ≤ a.nearValue)
    (buyOperations.insertionSort fun a b ↦ b.nearValue ≤ a.nearValue)

structure PhaseCounters where
  success : ℕ
  failed : ℕ

def PhaseCounters.count (counters : PhaseCounters) (succeeded : Bool) : PhaseCounters :=
  if succeeded then { counters with success := counters.success + 1 }
  else { counters with failed := counters.failed + 1 }

/-- The latest rate of a token that is held, unless it is too small to trade at. -/
def spotRateOf (setting : Setting) (token : TokenAccount) : TradeProgram (Option ExchangeRate) := do
  match ← query (.latestRate token setting.wnear) with
  | none => .fail s!"No rate found for token: {token}"
  | some rate =>
    let spot := rate.toSpotRate
    pure (if spot.isEffectivelyZero then none else some spot)

/-- Whether a token has to be sold or bought to reach its weight. Differences of less than one
NEAR are left alone. -/
def addDifference (setting : Setting) (balances : SortedMap TokenAccount TokenAmount)
    (totalValue : BigDecimal) (operations : List SellOperation × List BuyOperation)
    (target : TokenAccount × BigDecimal) :
    TradeProgram (List SellOperation × List BuyOperation) :=
  let (token, weight) := target
  if weight < 0 ∨ token = setting.wnear then pure operations
  else do
    let held := (balances.get token).filter (!·.isZero)
    let spotRate ← (if held.isSome then spotRateOf setting token else pure none)
    let currentValue := match held, spotRate with
      | some amount, some rate => amount.value rate
      | _, _ => 0
    let difference := totalValue * weight - currentValue
    if difference ≤ -1 then
      match spotRate with
      | none => .fail s!"No cached rate for sell operation: {token}"
      | some rate => pure (operations.1 ++ [⟨token, |difference|, rate⟩], operations.2)
    else if 1 ≤ difference then
      pure (operations.1, operations.2 ++ [⟨token, difference⟩])
    else pure operations

structure RebalanceContext where
  client : Client
  wallet : Wallet
  recorder : TradeRecorder
  cfg : ConfigAccess
  expectedReturns : ExpectedReturns

/-- One swap of a rebalancing, and whether it worked. Its error is only logged. -/
def trySwap (setting : Setting) (ctx : RebalanceContext) (fromToken toToken : TokenAccount)
    (amount : ℕ) (policy : SlippagePolicy) : TradeProgram Bool := do
  let result ← (executeDirectSwap setting ctx.client ctx.wallet
    ⟨fromToken, toToken, some amount, ctx.recorder, policy⟩ ctx.cfg).attempt
  pure result.isOk

/-- Sells a value in NEAR of a token. An amount that is zero or not a `u128` is a failure. -/
def sellValue (setting : Setting) (ctx : RebalanceContext) (fromToken toToken : TokenAccount)
    (nearValue : BigDecimal) (rate : ExchangeRate) : TradeProgram Bool :=
  match BigDecimal.toU128 (TokenAmount.ofValue nearValue rate).smallestUnits with
  | none => pure false
  | some amount =>
    if amount = 0 then pure false
    else trySwap setting ctx fromToken toToken amount .unprotected

/-- What does not work directly is tried again through wrapped NEAR. -/
def runDirectSwap (setting : Setting) (ctx : RebalanceContext)
    (state : PhaseCounters × List SellOperation × List BuyOperation) (swap : DirectSwap) :
    TradeProgram (PhaseCounters × List SellOperation × List BuyOperation) := do
  let (counters, sells, buys) := state
  let succeeded ← sellValue setting ctx swap.sellToken swap.buyToken swap.nearValue
    swap.sellExchangeRate
  if succeeded then pure (counters.count true, sells, buys)
  else pure (counters.count false,
    sells ++ [⟨swap.sellToken, swap.nearValue, swap.sellExchangeRate⟩],
    buys ++ [⟨swap.buyToken, swap.nearValue⟩])

def runSell (setting : Setting) (ctx : RebalanceContext) (counters : PhaseCounters)
    (sell : SellOperation) : TradeProgram PhaseCounters := do
  let succeeded ← sellValue setting ctx sell.token setting.wnear sell.nearValue sell.exchangeRate
  pure (counters.count succeeded)

/-- Where the balance does not cover all purchases they are cut down in proportion, and the
last one takes what is left. -/
def purchaseAmount (available allocated : ℕ) (ratio : Option BigDecimal) (isLast : Bool)
    (nearValue : BigDecimal) : ℕ :=
  match ratio with
  | some r => if isLast then available - allocated else yoctoToU128 (nearValue * r * yoctoPerNear)
  | none => yoctoToU128 (nearValue * yoctoPerNear)

def runBuys (setting : Setting) (ctx : RebalanceContext) (available : ℕ)
    (ratio : Option BigDecimal) :
    ℕ → PhaseCounters → List BuyOperation → TradeProgram PhaseCounters
  | _, counters, [] => pure counters
  | allocated, counters, buy :: buys => do
    let amount := purchaseAmount available allocated ratio buys.isEmpty buy.nearValue
    let policy := buyPolicy buy.token ctx.expectedReturns
    let succeeded ← (if amount = 0 then pure false
      else trySwap setting ctx setting.wnear buy.token amount policy)
    runBuys setting ctx available ratio (saturatingAdd allocated amount)
      (counters.count succeeded) buys

def runRemainingBuys (setting : Setting) (ctx : RebalanceContext) (buys : List BuyOperation) :
    TradeProgram PhaseCounters :=
  if buys.isEmpty then pure ⟨0, 0⟩
  else do
    let deposits ← getDeposits ctx.client ctx.wallet.accountId
    let available := (depositOf deposits setting.wnear).toNat
    if available = 0 then pure ⟨0, 0⟩
    else
      let availableValue := BigDecimal.div available yoctoPerNear
      let totalValue := (buys.map BuyOperation.nearValue).sum
      let ratio := if availableValue < totalValue then
        some (BigDecimal.div availableValue totalValue) else none
      runBuys setting ctx available ratio 0 ⟨0, 0⟩ buys

def ensureWnearIncluded (wnear : TokenAccount) (tokens : List TokenAccount) : List TokenAccount :=
  if wnear ∈ tokens then tokens else tokens ++ [wnear]

def balancesToHoldings (balances : SortedMap TokenAccount TokenAmount) : List TokenHolding :=
  (balances.entries.filter fun entry ↦ !entry.2.isZero).map fun entry ↦
    ⟨entry.1, entry.2.smallestUnits, entry.2.decimals⟩

def holdingsToBalances (holdings : List TokenHolding) : SortedMap TokenAccount TokenAmount :=
  holdings.foldl (fun balances h ↦ balances.insert h.token ⟨h.balance, h.decimals⟩) .empty

def recordPortfolioHoldings (setting : Setting) (client : Client) (wallet : Wallet)
    (periodId : String) (selectedTokens : List TokenAccount) (currentTime : Time) :
    TradeProgram Unit := do
  let balances ← getCurrentPortfolioBalances client wallet
    (ensureWnearIncluded setting.wnear selectedTokens)
  match balancesToHoldings balances with
  | [] => pure ()
  | holdings => query (.insertHolding ⟨periodId, currentTime, holdings⟩)

def getHoldingsFromDb (periodId : String) :
    TradeProgram (Option (SortedMap TokenAccount TokenAmount)) := do
  let record ← query (.latestHolding periodId)
  pure (record.map fun r ↦ holdingsToBalances r.tokenHoldings)

def executeRebalance (setting : Setting) (ctx : RebalanceContext)
    (targetWeights : SortedMap TokenAccount BigDecimal) (periodId : String) :
    TradeProgram Unit := do
  let holdings ← getHoldingsFromDb periodId
  let balances ← (match holdings with
    | some balances => pure balances
    | none => getCurrentPortfolioBalances ctx.client ctx.wallet
        (ensureWnearIncluded setting.wnear targetWeights.keys))
  let totalValue ← calculateTotalPortfolioValue setting balances
  let (sells, buys) ← targetWeights.entries.foldlM (addDifference setting balances totalValue)
    ([], [])
  let matching := matchRebalanceOperations sells buys
  let (direct, fallbackSells, fallbackBuys) ← matching.directSwaps.foldlM
    (runDirectSwap setting ctx) (⟨0, 0⟩, [], [])
  let sold ← (matching.remainingSells ++ fallbackSells).foldlM (runSell setting ctx) ⟨0, 0⟩
  let bought ← runRemainingBuys setting ctx (matching.remainingBuys ++ fallbackBuys)
  let failed := direct.failed + sold.failed + bought.failed
  if direct.success + sold.success + bought.success = 0 ∧ 0 < failed then
    .fail s!"All rebalance operations failed ({failed} failed)"
  else pure ()

def swapAll (setting : Setting) (ctx : RebalanceContext) (fromToken toToken : TokenAccount)
    (policy : SlippagePolicy) : TradeProgram Unit :=
  executeDirectSwap setting ctx.client ctx.wallet ⟨fromToken, toToken, none, ctx.recorder, policy⟩
    ctx.cfg

def executeSingleAction (setting : Setting) (ctx : RebalanceContext)
    (swapAmountOverride : Option ℕ) (periodId : String) : TradingAction → TradeProgram Unit
  | .hold => pure ()
  | .sell token target => do
    (swapAll setting ctx token setting.wnear .unprotected).when (token ≠ setting.wnear)
    (swapAll setting ctx setting.wnear target (buyPolicy target ctx.expectedReturns)).when
      (target ≠ setting.wnear)
  | .switch fromToken toToken =>
    swapAll setting ctx fromToken toToken (buyPolicy toToken ctx.expectedReturns)
  | .rebalance targetWeights => executeRebalance setting ctx targetWeights periodId
  | .addPosition token weight =>
    if token = setting.wnear then pure ()
    else
      match swapAmountOverride with
      | none => .fail s!"No pre-computed swap amount for AddPosition: {token}"
      | some 0 => .fail s!"Pre-computed swap amount is 0 for token: {token} (weight: {weight})"
      | some amount => executeDirectSwap setting ctx.client ctx.wallet
          ⟨setting.wnear, token, some amount, ctx.recorder,
            buyPolicy token ctx.expectedReturns⟩ ctx.cfg
  | .reducePosition token _ =>
    (swapAll setting ctx token setting.wnear .unprotected).when (token ≠ setting.wnear)

/-- Carries out the actions one after the other. A failed action is counted and does not stop
the others. -/
def executeTradingActions (setting : Setting) (client : Client) (wallet : Wallet)
    (actions : List TradingAction) (periodId : String) (cfg : ConfigAccess)
    (expectedReturns : ExpectedReturns) : TradeProgram PhaseCounters := do
  let recorder ← TradeRecorder.new periodId
  let amounts ← precomputeAddPositionAmounts setting client wallet actions
  let ctx : RebalanceContext := ⟨client, wallet, recorder, cfg, expectedReturns⟩
  actions.zipIdx.foldlM (fun summary action ↦ do
    let result ← (executeSingleAction setting ctx (amounts.lookup action.2) periodId
      action.1).attempt
    pure (summary.count result.isOk)) ⟨0, 0⟩

structure LiquidationResult where
  wrapNearBalance : U128
  failedTokens : List TokenAccount

def filterTokensToLiquidate (deposits : SortedMap TokenAccount U128) (wnear : TokenAccount) :
    List TokenAccount :=
  (deposits.entries.filter fun entry ↦ entry.1 ≠ wnear ∧ 0 < entry.2).map Prod.fst

def liquidateToken (setting : Setting) (client : Client) (wallet : Wallet)
    (recorder : TradeRecorder) (cfg : ConfigAccess) (failedTokens : List TokenAccount)
    (token : TokenAccount) : TradeProgram (List TokenAccount) := do
  let deposits ← getDeposits client wallet.accountId
  if depositOf deposits token = 0 then pure failedTokens
  else
    match ← (executeDirectSwap setting client wallet
      ⟨token, setting.wnear, none, recorder, .unprotected⟩ cfg).attempt with
    | .ok () => pure failedTokens
    | .error _ => pure (failedTokens ++ [token])

def liquidateAllPositions (setting : Setting) (client : Client) (wallet : Wallet)
    (cfg : ConfigAccess) : TradeProgram LiquidationResult := do
  match ← query .latestPeriod with
  | none => pure ⟨0, []⟩
  | some period =>
    let deposits ← getDeposits client wallet.accountId
    match filterTokensToLiquidate deposits setting.wnear with
    | [] => pure ⟨depositOf deposits setting.wnear, []⟩
    | tokens =>
      let recorder ← TradeRecorder.new period.periodId
      let failedTokens ← tokens.foldlM (liquidateToken setting client wallet recorder cfg) []
      let finalDeposits ← getDeposits client wallet.accountId
      pure ⟨depositOf finalDeposits setting.wnear, failedTokens⟩

section Uses

open Program Request

variable {client : Client} {wallet : Wallet} {now : Time} {setting : Setting}
  {cfg : ConfigAccess} {ctx : RebalanceContext}

theorem uses_precomputeAddPositionAmounts {actions : List TradingAction} :
    (precomputeAddPositionAmounts setting client wallet actions).Uses
      (Trading client wallet now setting.wnear) :=
  Uses.ite trivial (uses_getDeposits.bind fun _ ↦ trivial)

theorem uses_spotRateOf {token : TokenAccount} :
    (spotRateOf setting token).Uses (Trading client wallet now setting.wnear) := by
  refine (uses_query ⟨trivial, rfl, trivial⟩).bind fun rate ↦ ?_
  cases rate <;> trivial

theorem uses_addDifference {balances : SortedMap TokenAccount TokenAmount} {total : BigDecimal}
    {operations : List SellOperation × List BuyOperation} {target : TokenAccount × BigDecimal} :
    (addDifference setting balances total operations target).Uses
      (Trading client wallet now setting.wnear) := by
  refine Uses.ite trivial (Uses.bind (Uses.ite uses_spotRateOf trivial) fun rate ↦ ?_)
  refine Uses.ite ?_ (Uses.ite trivial trivial)
  cases rate <;> trivial

theorem uses_trySwap {a b : TokenAccount} {amount : ℕ} {policy : SlippagePolicy} :
    (trySwap setting ctx a b amount policy).Uses
      (Trading ctx.client ctx.wallet now setting.wnear) :=
  uses_executeDirectSwap.attempt.bind fun _ ↦ trivial

theorem uses_sellValue {a b : TokenAccount} {value : BigDecimal} {rate : ExchangeRate} :
    (sellValue setting ctx a b value rate).Uses
      (Trading ctx.client ctx.wallet now setting.wnear) := by
  unfold sellValue
  split
  · trivial
  · exact Uses.ite trivial uses_trySwap

theorem uses_runDirectSwap {state : PhaseCounters × List SellOperation × List BuyOperation}
    {swap : DirectSwap} :
    (runDirectSwap setting ctx state swap).Uses
      (Trading ctx.client ctx.wallet now setting.wnear) :=
  uses_sellValue.bind fun _ ↦ Uses.ite trivial trivial

theorem uses_runSell {counters : PhaseCounters} {sell : SellOperation} :
    (runSell setting ctx counters sell).Uses
      (Trading ctx.client ctx.wallet now setting.wnear) :=
  uses_sellValue.bind fun _ ↦ trivial

theorem uses_runBuys {available : ℕ} {ratio : Option BigDecimal} (allocated : ℕ)
    (counters : PhaseCounters) (buys : List BuyOperation) :
    (runBuys setting ctx available ratio allocated counters buys).Uses
      (Trading ctx.client ctx.wallet now setting.wnear) := by
  induction buys generalizing allocated counters with
  | nil => trivial
  | cons buy buys ih => exact Uses.bind (Uses.ite trivial uses_trySwap) fun _ ↦ ih _ _

theorem uses_runRemainingBuys {buys : List BuyOperation} :
    (runRemainingBuys setting ctx buys).Uses
      (Trading ctx.client ctx.wallet now setting.wnear) :=
  Uses.ite trivial (uses_getDeposits.bind fun _ ↦ Uses.ite trivial (uses_runBuys _ _ _))

variable {periodId : String}

theorem uses_getHoldingsFromDb {wnear : TokenAccount} :
    (getHoldingsFromDb periodId).Uses (Trading client wallet now wnear) :=
  (uses_query ⟨trivial, trivial, trivial⟩).bind fun _ ↦ trivial

theorem uses_recordPortfolioHoldings {tokens : List TokenAccount} {time : Time} :
    (recordPortfolioHoldings setting client wallet periodId tokens time).Uses
      (Trading client wallet now setting.wnear) := by
  refine uses_getCurrentPortfolioBalances.bind fun balances ↦ ?_
  split
  · trivial
  · exact uses_query ⟨trivial, trivial, trivial⟩

theorem uses_executeRebalance {weights : SortedMap TokenAccount BigDecimal} :
    (executeRebalance setting ctx weights periodId).Uses
      (Trading ctx.client ctx.wallet now setting.wnear) := by
  refine uses_getHoldingsFromDb.bind fun holdings ↦ Uses.bind ?_ fun balances ↦ ?_
  · cases holdings with
    | some balances => trivial
    | none => exact uses_getCurrentPortfolioBalances
  refine uses_calculateTotalPortfolioValue.bind fun total ↦ ?_
  refine (uses_foldlM (fun _ _ ↦ uses_addDifference) _ _).bind fun operations ↦ ?_
  refine (uses_foldlM (fun _ _ ↦ uses_runDirectSwap) _ _).bind fun direct ↦ ?_
  refine (uses_foldlM (fun _ _ ↦ uses_runSell) _ _).bind fun sold ↦ ?_
  exact uses_runRemainingBuys.bind fun bought ↦ Uses.ite trivial trivial

theorem uses_executeSingleAction (ctx : RebalanceContext) {override : Option ℕ}
    (action : TradingAction) :
    (executeSingleAction setting ctx override periodId action).Uses
      (Trading ctx.client ctx.wallet now setting.wnear) := by
  cases action with
  | hold => trivial
  | sell token target =>
    exact (Uses.when uses_executeDirectSwap).bind fun _ ↦ Uses.when uses_executeDirectSwap
  | switch fromToken toToken => exact uses_executeDirectSwap
  | rebalance weights => exact uses_executeRebalance
  | addPosition token weight =>
    refine Uses.ite trivial ?_
    split
    · trivial
    · trivial
    · exact uses_executeDirectSwap
  | reducePosition token weight => exact Uses.when uses_executeDirectSwap

theorem uses_executeTradingActions {actions : List TradingAction}
    {expectedReturns : ExpectedReturns} :
    (executeTradingActions setting client wallet actions periodId cfg expectedReturns).Uses
      (Trading client wallet now setting.wnear) := by
  refine uses_newRecorder.bind fun recorder ↦ ?_
  refine uses_precomputeAddPositionAmounts.bind fun amounts ↦ ?_
  refine uses_foldlM (fun summary action ↦ ?_) _ _
  let ctx : RebalanceContext := ⟨client, wallet, recorder, cfg, expectedReturns⟩
  exact (uses_executeSingleAction ctx action.1).attempt.bind fun _ ↦ trivial

theorem uses_liquidateToken {recorder : TradeRecorder} {failed : List TokenAccount}
    {token : TokenAccount} :
    (liquidateToken setting client wallet recorder cfg failed token).Uses
      (Trading client wallet now setting.wnear) := by
  refine uses_getDeposits.bind fun deposits ↦ Uses.ite trivial ?_
  refine uses_executeDirectSwap.attempt.bind fun result ↦ ?_
  rcases result with _ | ⟨⟩ <;> trivial

theorem uses_liquidateAllPositions :
    (liquidateAllPositions setting client wallet cfg).Uses
      (Trading client wallet now setting.wnear) := by
  refine (uses_query ⟨trivial, trivial, trivial⟩).bind fun period ↦ ?_
  cases period with
  | none => trivial
  | some period =>
    refine uses_getDeposits.bind fun deposits ↦ ?_
    split
    · trivial
    · refine uses_newRecorder.bind fun recorder ↦ ?_
      refine (uses_foldlM (fun _ _ ↦ uses_liquidateToken) _ _).bind fun failed ↦ ?_
      exact uses_getDeposits.bind fun _ ↦ trivial

end Uses

end Zaciraci.Trade
