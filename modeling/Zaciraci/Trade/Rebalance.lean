import Zaciraci.Trade.Matching

namespace Zaciraci.Trade

open Lib Persistence Storage

/-- The numbers a rebalancing computes with: how it divides, and how a decimal becomes an amount
that can be sent. -/
structure Arithmetic (N : Type) where
  div : BigDecimal → BigDecimal → BigDecimal
  ofDecimal : BigDecimal → Option N
  toDecimal : N → BigDecimal
  add : N → N → N
  sub : N → N → N

def truncated : Arithmetic ℕ where
  div := BigDecimal.div
  ofDecimal := BigDecimal.toU128
  toDecimal n := n
  add := saturatingAdd
  sub := (· - ·)

def exact : Arithmetic ℚ where
  div := (· / ·)
  ofDecimal q := if 0 ≤ q then some q else none
  toDecimal := id
  add := (· + ·)
  sub := (· - ·)

inductive RebalanceRequest (N : Type)
  | holdings (tokens : List TokenAccount)
  | latestRate (token : TokenAccount)
  | swap (fromToken toToken : TokenAccount) (amount : N) (policy : SlippagePolicy)
  | available

def RebalanceAnswer {N : Type} : RebalanceRequest N → Type
  | .holdings _ => SortedMap TokenAccount TokenAmount
  | .latestRate _ => Except String (Option TokenRate)
  | .swap _ _ _ _ => Bool
  | .available => N

/-- A rebalancing seen from the exchanges it makes: a swap is one of them. -/
abbrev RebalanceProgram (N α : Type) :=
  Program (RebalanceRequest N) RebalanceAnswer String α

namespace Rebalance

section Exchanges

variable {N : Type}

def holdings (tokens : List TokenAccount) :
    RebalanceProgram N (SortedMap TokenAccount TokenAmount) :=
  .perform (RebalanceRequest.holdings tokens)

def latestRate (token : TokenAccount) : RebalanceProgram N (Except String (Option TokenRate)) :=
  .perform (RebalanceRequest.latestRate token)

def swap (fromToken toToken : TokenAccount) (amount : N) (policy : SlippagePolicy) :
    RebalanceProgram N Bool :=
  .perform (RebalanceRequest.swap fromToken toToken amount policy)

def available : RebalanceProgram N N := .perform RebalanceRequest.available

end Exchanges

variable {N : Type} [Zero N] [DecidableEq N] (arith : Arithmetic N) (wnear : TokenAccount)

def valueAt (amount : TokenAmount) (rate : ExchangeRate) : BigDecimal :=
  if rate.isZero then 0 else arith.div amount.smallestUnits rate.rawRate

def valueOf (holding : TokenAccount × TokenAmount) : RebalanceProgram N BigDecimal :=
  if holding.2.isZero then pure 0
  else if holding.1 = wnear then pure (valueAt arith holding.2 .wnear)
  else do
    match ← latestRate holding.1 with
    | .ok (some rate) =>
      let spot := rate.toSpotRate
      pure (if spot.isEffectivelyZero then 0 else valueAt arith holding.2 spot)
    | _ => pure 0

def totalValue (balances : SortedMap TokenAccount TokenAmount) : RebalanceProgram N BigDecimal :=
  balances.entries.foldlM (fun total holding ↦ do
    let value ← valueOf arith wnear holding
    pure (total + value)) 0

def spotRateOf (token : TokenAccount) : RebalanceProgram N (Option ExchangeRate) := do
  match ← .ofExcept (← latestRate token) with
  | none => .fail s!"No rate found for token: {token}"
  | some rate =>
    let spot := rate.toSpotRate
    pure (if spot.isEffectivelyZero then none else some spot)

/-- The value of what is held of a token, or nothing if no rate is known. -/
def currentValue (held : Option TokenAmount) (rate : Option ExchangeRate) : BigDecimal :=
  match held, rate with
  | some amount, some rate => valueAt arith amount rate
  | _, _ => 0

def addDifference (balances : SortedMap TokenAccount TokenAmount) (total : BigDecimal)
    (operations : List SellOperation × List BuyOperation) (target : TokenAccount × BigDecimal) :
    RebalanceProgram N (List SellOperation × List BuyOperation) :=
  let (token, weight) := target
  if weight < 0 ∨ token = wnear then pure operations
  else do
    let held := (balances.get token).filter (!·.isZero)
    let spotRate ← (if held.isSome then spotRateOf token else pure none)
    let difference := total * weight - currentValue arith held spotRate
    if difference ≤ -1 then
      match spotRate with
      | none => .fail s!"No cached rate for sell operation: {token}"
      | some rate => pure (operations.1 ++ [⟨token, |difference|, rate⟩], operations.2)
    else if 1 ≤ difference then
      pure (operations.1, operations.2 ++ [⟨token, difference⟩])
    else pure operations

def submit (fromToken toToken : TokenAccount) (amount : N) (policy : SlippagePolicy) :
    RebalanceProgram N Bool :=
  if amount = 0 then pure false else swap fromToken toToken amount policy

def sellValue (fromToken toToken : TokenAccount) (nearValue : BigDecimal) (rate : ExchangeRate) :
    RebalanceProgram N Bool :=
  match arith.ofDecimal (TokenAmount.ofValue nearValue rate).smallestUnits with
  | none => pure false
  | some amount => submit fromToken toToken amount .unprotected

def runDirectSwap (state : PhaseCounters × List SellOperation × List BuyOperation)
    (swap : DirectSwap) :
    RebalanceProgram N (PhaseCounters × List SellOperation × List BuyOperation) := do
  let (counters, sells, buys) := state
  let succeeded ← sellValue arith swap.sellToken swap.buyToken swap.nearValue
    swap.sellExchangeRate
  if succeeded then pure (counters.count true, sells, buys)
  else pure (counters.count false,
    sells ++ [⟨swap.sellToken, swap.nearValue, swap.sellExchangeRate⟩],
    buys ++ [⟨swap.buyToken, swap.nearValue⟩])

def runSell (counters : PhaseCounters) (sell : SellOperation) :
    RebalanceProgram N PhaseCounters := do
  let succeeded ← sellValue arith sell.token wnear sell.nearValue sell.exchangeRate
  pure (counters.count succeeded)

def purchaseAmount (available allocated : N) (ratio : Option BigDecimal) (isLast : Bool)
    (nearValue : BigDecimal) : N :=
  match ratio with
  | some r =>
    if isLast then arith.sub available allocated
    else (arith.ofDecimal (nearValue * r * yoctoPerNear)).getD 0
  | none => (arith.ofDecimal (nearValue * yoctoPerNear)).getD 0

def runBuys (returns : ExpectedReturns) (available : N) (ratio : Option BigDecimal) :
    N → PhaseCounters → List BuyOperation → RebalanceProgram N PhaseCounters
  | _, counters, [] => pure counters
  | allocated, counters, buy :: buys => do
    let amount := purchaseAmount arith available allocated ratio buys.isEmpty buy.nearValue
    let succeeded ← submit wnear buy.token amount (buyPolicy buy.token returns)
    runBuys returns available ratio (arith.add allocated amount) (counters.count succeeded) buys

def runRemainingBuys (returns : ExpectedReturns) (buys : List BuyOperation) :
    RebalanceProgram N PhaseCounters :=
  if buys.isEmpty then pure ⟨0, 0⟩
  else do
    let available ← available
    if available = 0 then pure ⟨0, 0⟩
    else
      let availableValue := arith.div (arith.toDecimal available) yoctoPerNear
      let totalValue := (buys.map BuyOperation.nearValue).sum
      let ratio := if availableValue < totalValue then
        some (arith.div availableValue totalValue) else none
      runBuys arith wnear returns available ratio 0 ⟨0, 0⟩ buys

/-- The three phases that carry out the operations. -/
def settleMatched (returns : ExpectedReturns) (matching : MatchResult) :
    RebalanceProgram N Unit := do
  let (direct, fallbackSells, fallbackBuys) ← matching.directSwaps.foldlM
    (runDirectSwap arith) (⟨0, 0⟩, [], [])
  let sold ← (matching.remainingSells ++ fallbackSells).foldlM (runSell arith wnear) ⟨0, 0⟩
  let bought ← runRemainingBuys arith wnear returns (matching.remainingBuys ++ fallbackBuys)
  let failed := direct.failed + sold.failed + bought.failed
  if direct.success + sold.success + bought.success = 0 ∧ 0 < failed then
    .fail s!"All rebalance operations failed ({failed} failed)"
  else pure ()

def settle (returns : ExpectedReturns) (sells : List SellOperation) (buys : List BuyOperation) :
    RebalanceProgram N Unit :=
  settleMatched arith wnear returns (matchRebalanceOperations sells buys)

/-- A rebalancing that matches its operations by `matching`. -/
def rebalanceBy (matching : List SellOperation → List BuyOperation → MatchResult)
    (returns : ExpectedReturns) (targetWeights : SortedMap TokenAccount BigDecimal) :
    RebalanceProgram N Unit := do
  let balances ← holdings (ensureWnearIncluded wnear targetWeights.keys)
  let total ← totalValue arith wnear balances
  let (sells, buys) ← targetWeights.entries.foldlM (addDifference arith wnear balances total)
    ([], [])
  settleMatched arith wnear returns (matching sells buys)

def rebalance (returns : ExpectedReturns) (targetWeights : SortedMap TokenAccount BigDecimal) :
    RebalanceProgram N Unit :=
  rebalanceBy arith wnear matchRebalanceOperations returns targetWeights

/-- How the program of the source makes each exchange. -/
def handler (setting : Setting) (ctx : RebalanceContext) (periodId : String) :
    (q : RebalanceRequest ℕ) → TradeProgram (RebalanceAnswer q)
  | .holdings tokens => do
    match ← getHoldingsFromDb periodId with
    | some balances => pure balances
    | none => getCurrentPortfolioBalances ctx.client ctx.wallet tokens
  | .latestRate token => (query (.latestRate token setting.wnear)).attempt
  | .swap fromToken toToken amount policy => trySwap setting ctx fromToken toToken amount policy
  | .available => do
    let deposits ← getDeposits ctx.client ctx.wallet.accountId
    pure (depositOf deposits setting.wnear).toNat

section Source

open Program

variable {setting : Setting} {ctx : RebalanceContext} {periodId : String}

theorem interp_holdings (tokens : List TokenAccount) :
    (holdings tokens).interp (handler setting ctx periodId) =
      handler setting ctx periodId (.holdings tokens) :=
  interp_perform (RebalanceRequest.holdings tokens)

theorem interp_latestRate (token : TokenAccount) :
    (latestRate token).interp (handler setting ctx periodId) =
      (query (.latestRate token setting.wnear)).attempt :=
  interp_perform (RebalanceRequest.latestRate token)

theorem interp_swap (a b : TokenAccount) (amount : ℕ) (policy : SlippagePolicy) :
    (swap a b amount policy).interp (handler setting ctx periodId) =
      trySwap setting ctx a b amount policy :=
  interp_perform (RebalanceRequest.swap a b amount policy)

theorem interp_available :
    available.interp (handler setting ctx periodId) =
      handler setting ctx periodId .available :=
  interp_perform RebalanceRequest.available

theorem interp_valueOf (holding : TokenAccount × TokenAmount) :
    (valueOf truncated setting.wnear holding).interp (handler setting ctx periodId) =
      Trade.valueOf setting holding := by
  rw [valueOf, Trade.valueOf, interp_ite, interp_ite, interp_bind, interp_latestRate]
  congr 3
  funext reply
  rcases reply with e | _ | rate <;> rfl

theorem interp_totalValue (balances : SortedMap TokenAccount TokenAmount) :
    (totalValue truncated setting.wnear balances).interp (handler setting ctx periodId) =
      calculateTotalPortfolioValue setting balances := by
  rw [totalValue, calculateTotalPortfolioValue, interp_foldlM]
  congr 1
  funext total holding
  rw [interp_bind, interp_valueOf]
  rfl

theorem interp_spotRateOf (token : TokenAccount) :
    (spotRateOf token).interp (handler setting ctx periodId) = Trade.spotRateOf setting token := by
  rw [spotRateOf, Trade.spotRateOf, interp_bind, interp_latestRate]
  conv_rhs => rw [← attempt_bind_ofExcept (query (.latestRate token setting.wnear))]
  refine Eq.trans ?_ (bind_bind _ _ _).symm
  change Program.bind _ _ = _
  congr 1
  funext reply
  rcases reply with e | _ | rate <;> rfl

theorem interp_addDifference (balances : SortedMap TokenAccount TokenAmount) (total : BigDecimal)
    (operations : List SellOperation × List BuyOperation) (target : TokenAccount × BigDecimal) :
    (addDifference truncated setting.wnear balances total operations target).interp
        (handler setting ctx periodId) =
      Trade.addDifference setting balances total operations target := by
  obtain ⟨token, weight⟩ := target
  simp only [addDifference, Trade.addDifference, interp_ite, interp_bind, interp_spotRateOf]
  congr 3
  funext rate
  congr 1
  cases rate <;> rfl

theorem interp_submit (a b : TokenAccount) (amount : ℕ) (policy : SlippagePolicy) :
    (submit a b amount policy).interp (handler setting ctx periodId) =
      if amount = 0 then pure false else trySwap setting ctx a b amount policy := by
  rw [submit, interp_ite, interp_swap]
  rfl

theorem interp_sellValue (a b : TokenAccount) (nearValue : BigDecimal) (rate : ExchangeRate) :
    (sellValue truncated a b nearValue rate).interp (handler setting ctx periodId) =
      Trade.sellValue setting ctx a b nearValue rate := by
  simp only [sellValue, Trade.sellValue, truncated]
  cases BigDecimal.toU128 (TokenAmount.ofValue nearValue rate).smallestUnits with
  | none => rfl
  | some amount => exact interp_submit _ _ _ _

theorem interp_runDirectSwap (state : PhaseCounters × List SellOperation × List BuyOperation)
    (swap : DirectSwap) :
    (runDirectSwap truncated state swap).interp (handler setting ctx periodId) =
      Trade.runDirectSwap setting ctx state swap := by
  rw [runDirectSwap, Trade.runDirectSwap, interp_bind, interp_sellValue]
  congr 1
  funext succeeded
  cases succeeded <;> rfl

theorem interp_runSell (counters : PhaseCounters) (sell : SellOperation) :
    (runSell truncated setting.wnear counters sell).interp (handler setting ctx periodId) =
      Trade.runSell setting ctx counters sell := by
  rw [runSell, Trade.runSell, interp_bind, interp_sellValue]
  rfl

theorem interp_runBuys (available : ℕ) (ratio : Option BigDecimal) (allocated : ℕ)
    (counters : PhaseCounters) (buys : List BuyOperation) :
    (runBuys truncated setting.wnear ctx.expectedReturns available ratio allocated counters
        buys).interp (handler setting ctx periodId) =
      Trade.runBuys setting ctx available ratio allocated counters buys := by
  induction buys generalizing allocated counters with
  | nil => rfl
  | cons buy buys ih =>
    simp only [runBuys, Trade.runBuys, interp_bind, interp_submit, ih]
    cases ratio <;> rfl

theorem interp_runRemainingBuys (buys : List BuyOperation) :
    (runRemainingBuys truncated setting.wnear ctx.expectedReturns buys).interp
        (handler setting ctx periodId) = Trade.runRemainingBuys setting ctx buys := by
  rw [runRemainingBuys, Trade.runRemainingBuys, interp_ite, interp_bind, interp_available]
  congr 1
  refine (bind_bind _ _ _).trans ?_
  change Program.bind _ _ = Program.bind _ _
  congr 1
  funext deposits
  refine interp_ite.trans ?_
  congr 1
  exact interp_runBuys _ _ _ _ _

/-- The program of the source is the abstract one, with each exchange made by its handler. -/
theorem executeRebalance_eq (targetWeights : SortedMap TokenAccount BigDecimal) :
    executeRebalance setting ctx targetWeights periodId =
      (rebalance truncated setting.wnear ctx.expectedReturns targetWeights).interp
        (handler setting ctx periodId) := by
  simp only [executeRebalance, rebalance, rebalanceBy, settleMatched, interp_bind,
    interp_totalValue, interp_foldlM, interp_addDifference, interp_runDirectSwap, interp_runSell,
    interp_runRemainingBuys, interp_ite]
  rw [interp_holdings]
  exact (bind_bind _ _ _).symm

end Source

end Rebalance

end Zaciraci.Trade
