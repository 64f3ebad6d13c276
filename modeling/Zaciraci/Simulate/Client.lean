import Zaciraci.Simulate.PortfolioState
import Zaciraci.Trade.Strategy

namespace Zaciraci.Simulate

open Lib Dex Persistence Trade
open Storage (Wallet)

def defaultDecimals : ℕ := 24

def storageBoundMinYocto : ℕ := 1250000000000000000000

def simulationWallet : Wallet := ⟨"sim.near"⟩

/-- What stays the same during a cycle with a `SimulationClient`. -/
structure SimulationClient where
  wnear : TokenAccount
  initialNative : BigDecimal
  simDay : Time

/-- What a process with a simulation depends on besides its own state: the start-up
configuration, its clocks and identifiers, and the chain that a standard client talks to. -/
structure Outside (γ : Type) where
  startup : Option Wallet
  predictionService : Except String Unit
  utcNow : ℕ → Time
  unixSeconds : ℕ → UInt64
  newUuid : ℕ → String
  chain : (q : ChainRequest) → γ → ChainReply q × γ

/-- The state of a simulation. `readings` counts the uses of clocks and identifiers. -/
structure World (γ : Type) where
  db : Database
  portfolio : PortfolioState
  registered : SortedMap TokenAccount Unit
  decimals : SortedMap TokenAccount ℕ
  lastHarvest : HarvestClock → UInt64
  readings : ℕ
  chain : γ

variable {γ : Type}

def decimalsFor (w : World γ) (token : TokenAccount) : ℕ :=
  (w.decimals.get token).getD defaultDecimals

/-- Each hop works on the output of the one before it. -/
def estimateSwapViaPools (pools : PoolInfoList) : List SwapAction → U128 → Option U128
  | [], amount => some amount
  | action :: actions, amount => do
    let pool ← (pools.get action.poolId).toOption
    let inIdx ← pool.tokenAccountIds.idxOf? action.tokenIn
    let outIdx ← pool.tokenAccountIds.idxOf? action.tokenOut
    let out ← (pool.estimateReturn inIdx amount outIdx).toOption
    estimateSwapViaPools pools actions out

def getRateAtDate (sim : SimulationClient) (db : Database) (token : TokenAccount) :
    Option ExchangeRate :=
  (db.getSpotRatesAtTime [token] sim.wnear sim.simDay).get token

/-- The fallback without fees, which is zero where a rate is missing. -/
def calculateSwapOutputViaRates (sim : SimulationClient) (w : World γ)
    (tokenIn : TokenAccount) (amountIn : ℕ) (tokenOut : TokenAccount) : ℕ :=
  let nearValue := if tokenIn = sim.wnear then some (BigDecimal.div amountIn yoctoPerNear)
    else (getRateAtDate sim w.db tokenIn).map fun rate ↦
      TokenAmount.value ⟨amountIn, decimalsFor w tokenIn⟩ rate
  match nearValue with
  | none => 0
  | some value =>
    if tokenOut = sim.wnear then toU128OrWarn (value * yoctoPerNear)
    else match getRateAtDate sim w.db tokenOut with
      | none => 0
      | some rate => toU128OrWarn (TokenAmount.ofValue value rate).smallestUnits

def calculateSwapOutput (sim : SimulationClient) (w : World γ) (actions : List SwapAction)
    (tokenIn : TokenAccount) (amountIn : ℕ) (tokenOut : TokenAccount) : ℕ × SwapMethod :=
  let viaPools := do
    let pools ← (w.db.readFromDb (some sim.simDay) sim.simDay).toOption
    estimateSwapViaPools pools actions (BitVec.ofNat 128 amountIn)
  match viaPools with
  | some out => (out.toNat, .poolBased)
  | none => (calculateSwapOutputViaRates sim w tokenIn amountIn tokenOut, .dbRate)

def handleSwap (sim : SimulationClient) (w : World γ) (actions : List SwapAction) :
    ℕ × World γ :=
  match actions.head?, actions.getLast? with
  | some first, some last =>
    let amountIn := first.amountIn.getD 0
    if amountIn = 0 then (0, w)
    else
      let (amountOut, swapMethod) := calculateSwapOutput sim w actions first.tokenIn amountIn
        last.tokenOut
      if amountOut = 0 then (0, w)
      else
        match w.portfolio.executeSimulatedSwap sim.wnear first.tokenIn amountIn last.tokenOut
          amountOut (decimalsFor w last.tokenOut) with
        | none => (0, w)
        | some (swapped, portfolio) =>
          let event : SwapEvent :=
            { timestamp := sim.simDay
              tokenIn := first.tokenIn
              amountIn := ⟨swapped.actualIn, decimalsFor w first.tokenIn⟩
              tokenOut := last.tokenOut
              amountOut := ⟨swapped.actualOut, decimalsFor w last.tokenOut⟩
              swapMethod
              poolIds := actions.map (·.poolId) }
          (swapped.actualOut, { w with portfolio :=
            { portfolio with swapEvents := portfolio.swapEvents ++ [event] } })
  | _, _ => (0, w)

theorem handleSwap_db (sim : SimulationClient) (w : World γ) (actions : List SwapAction) :
    (handleSwap sim w actions).2.db = w.db := by
  rw [handleSwap]
  split
  · dsimp only
    split_ifs
    · rfl
    · rfl
    · split <;> rfl
  · rfl

/-- `MockSentTx`: every transaction succeeds with an output amount. -/
def mockSentTx (outputAmount : ℕ) : Sent :=
  .succeeded s!"MockSentTx(sim, output={outputAmount})" (.ok outputAmount)

def execContract (sim : SimulationClient) (w : World γ) : Call → Sent × World γ
  | .swap actions =>
    let (output, w) := handleSwap sim w actions
    (mockSentTx output, w)
  | .storage (.registerTokens tokens) =>
    (mockSentTx 0, { w with registered := tokens.foldl (fun r t ↦ r.insert t ()) w.registered })
  | .storage (.unregisterTokens tokens) =>
    (mockSentTx 0, { w with registered := tokens.foldl (fun r t ↦ r.erase t) w.registered })
  | .ftTransferCall token _ =>
    (mockSentTx 0, { w with registered := w.registered.insert token () })
  | _ => (mockSentTx 0, w)

theorem execContract_db (sim : SimulationClient) (w : World γ) (call : Call) :
    (execContract sim w call).2.db = w.db := by
  cases call with
  | swap actions => exact handleSwap_db sim w actions
  | storage method => cases method <;> rfl
  | _ => rfl

def depositValue (sim : SimulationClient) (w : World γ) (token : TokenAccount) : BigDecimal :=
  if token = sim.wnear then w.portfolio.cashBalance
  else match w.portfolio.holdings.get token with
    | some holding => holding.smallestUnits
    | none => 0

/-- A balance that is no `u128` cannot be read back from the reply. -/
def viewDeposits (sim : SimulationClient) (w : World γ) :
    Except String (SortedMap TokenAccount U128) :=
  w.registered.keys.foldlM (fun deposits token ↦
    match BigDecimal.toU128 (BigDecimal.trunc (depositValue sim w token)) with
    | some amount => .ok (deposits.insert token (BitVec.ofNat 128 amount))
    | none => .error "invalid deposit amount") .empty

def viewDecimals (w : World γ) (token : TokenAccount) : ℕ :=
  ((w.decimals.get token).or ((w.portfolio.holdings.get token).map TokenAmount.decimals)).getD
    defaultDecimals

def clientAnswer (sim : SimulationClient) (w : World γ) :
    (q : ChainRequest) → ChainReply q × World γ
  | .storageBalanceOf _ =>
    (.ok (some ⟨saturatingMul storageBoundMinYocto (w.registered.size + 1), 0⟩), w)
  | .storageBalanceBounds => (.ok ⟨storageBoundMinYocto, some storageBoundMinYocto⟩, w)
  | .getDeposits _ => (viewDeposits sim w, w)
  | .wnearBalanceOf _ => (.ok (BitVec.ofNat 128 (10 ^ 30)), w)
  | .nativeAmount _ => (.ok (BitVec.ofNat 128 (toU128OrWarn sim.initialNative)), w)
  | .ftMetadata token => (.ok (viewDecimals w token), w)
  | .ftBalanceOf _ => (.ok (BitVec.ofNat 128 (10 ^ 30)), w)
  | .ftTotalSupply _ => (.ok (10 ^ 30), w)
  | .exec tx => execContract sim w tx.call
  | .transferNativeToken .. => (mockSentTx 0, w)

theorem clientAnswer_db (sim : SimulationClient) (w : World γ) (q : ChainRequest) :
    (clientAnswer sim w q).2.db = w.db := by
  cases q with
  | exec tx => exact execContract_db sim w tx.call
  | _ => rfl

def answer (sim : SimulationClient) (outside : Outside γ) :
    (q : Request) → World γ → Answer q × World γ
  | .chain .given q, w => clientAnswer sim w q
  | .chain .standard q, w =>
    let (reply, chain) := outside.chain q w.chain
    (reply, { w with chain })
  | .db q, w =>
    let (reply, db) := w.db.answer q
    (reply, { w with db })
  | .utcNow, w => (outside.utcNow w.readings, { w with readings := w.readings + 1 })
  | .unixSeconds, w => (outside.unixSeconds w.readings, { w with readings := w.readings + 1 })
  | .newUuid, w => (outside.newUuid w.readings, { w with readings := w.readings + 1 })
  | .lastHarvest clock, w => (w.lastHarvest clock, w)
  | .setLastHarvest clock seconds, w =>
    ((), { w with lastHarvest := Function.update w.lastHarvest clock seconds })
  | .newWallet, w => (outside.startup, w)
  | .newPredictionService, w => (outside.predictionService, w)
  | .cachedDecimals token, w => (w.decimals.get token, w)
  | .cacheDecimals token decimals, w =>
    ((), { w with decimals := w.decimals.insert token decimals })

def simulateCycle (setting : Setting) (analysis : Analysis) (initialNative : BigDecimal)
    (simDay : Time) (outside : Outside γ) (cfg : ConfigAccess) (w : World γ) :
    Program.Report Request Answer String (List TradingAction) (World γ) :=
  (tradeCycle setting analysis .given simulationWallet simDay cfg).run
    (answer ⟨setting.wnear, initialNative, simDay⟩ outside) w

/-- The defaults of the configuration, with trading enabled as `apply_config` does it. -/
def simulationConfig : ConfigAccess where
  tradeEnabled := true
  tradeInitialInvestment := 100
  tradeTopTokens := 10
  tradeEvaluationDays := 10
  tradeAccountReserve := 10
  tradePriceHistoryDays := 30
  tradeUnwrapOnStop := false
  tradeMinPoolLiquidity := 100
  tradeMinTokenConfidence := 0.3
  harvestAccountId := .error "HARVEST_ACCOUNT_ID is not set"
  harvestMinAmount := 10
  harvestReserveAmount := 1
  harvestIntervalSeconds := 86400
  harvestBalanceMultiplier := 128
  evaluationPeriodsRetentionDays := 365
  portfolioRebalanceThreshold := 0.1
  predictionAccuracyWindow := 20
  refStorageMaxTopUpYoctonear := 500000000000000000000000

def idleAnalysis : Analysis where
  volatility := fun _ ↦ none
  liquidityScore := fun _ _ ↦ 0
  expectedReturn := fun _ _ ↦ 0
  confidence := fun _ _ ↦ .empty
  optimize := fun _ _ _ ↦ .ok [.hold]

end Zaciraci.Simulate
