import Zaciraci.Persistence.Database
import Zaciraci.Storage.Ensure

namespace Zaciraci.Trade

open Lib Persistence Storage

/-- The configuration values a trading cycle reads. -/
structure ConfigAccess where
  tradeEnabled : Bool
  tradeInitialInvestment : UInt32
  tradeTopTokens : UInt32
  tradeEvaluationDays : UInt32
  tradeAccountReserve : UInt32
  tradePriceHistoryDays : UInt32
  tradeUnwrapOnStop : Bool
  tradeMinPoolLiquidity : UInt32
  tradeMinTokenConfidence : Float
  harvestAccountId : Except String String
  harvestMinAmount : UInt32
  harvestReserveAmount : UInt32
  harvestIntervalSeconds : UInt64
  harvestBalanceMultiplier : ℕ
  evaluationPeriodsRetentionDays : UInt32
  portfolioRebalanceThreshold : Float
  predictionAccuracyWindow : ℤ
  refStorageMaxTopUpYoctonear : ℕ

/-- Through which client a request goes: the one the cycle was given, or one that
`jsonrpc::new_client` connects to the chain. -/
inductive Client
  | given
  | standard
deriving DecidableEq

structure SwapAction where
  poolId : ℕ
  tokenIn : TokenAccount
  amountIn : Option ℕ
  tokenOut : TokenAccount
  minAmountOut : ℕ
deriving DecidableEq

/-- The contract methods that are executed, with their arguments. -/
inductive Call
  | storage (method : Method)
  | nearDeposit
  | nearWithdraw (amount : ℕ)
  | ftTransferCall (token : TokenAccount) (amount : ℕ)
  | withdraw (token : TokenAccount) (amount : ℕ)
  | swap (actions : List SwapAction)
deriving DecidableEq

structure Transaction where
  signer : AccountId
  call : Call
  deposit : ℕ
deriving DecidableEq

/-- What became of a transaction. Sending it and waiting for it can fail, and it can itself fail
on the chain. -/
inductive Sent
  | refused (message : String)
  | failed (message : String)
  | reverted (id message : String)
  | succeeded (id : String) (output : Except String ℕ)

inductive ChainRequest
  | storageBalanceOf (account : AccountId)
  | storageBalanceBounds
  | getDeposits (account : AccountId)
  | wnearBalanceOf (account : AccountId)
  | nativeAmount (account : AccountId)
  | ftMetadata (token : TokenAccount)
  | ftBalanceOf (token : TokenAccount)
  | ftTotalSupply (token : TokenAccount)
  | exec (tx : Transaction)
  | transferNativeToken (signer receiver : AccountId) (amount : ℕ)
deriving DecidableEq

@[reducible] def ChainReply : ChainRequest → Type
  | .storageBalanceOf _ => Except String (Option StorageBalance)
  | .storageBalanceBounds => Except String StorageBalanceBounds
  | .getDeposits _ => Except String (SortedMap TokenAccount U128)
  | .wnearBalanceOf _ => Except String U128
  | .nativeAmount _ => Except String U128
  | .ftMetadata _ => Except String ℕ
  | .ftBalanceOf _ => Except String U128
  | .ftTotalSupply _ => Except String BigDecimal
  | .exec _ => Sent
  | .transferNativeToken .. => Sent

/-- The two clocks of the source that remember the last harvest. -/
inductive HarvestClock
  | trade
  | balances
deriving DecidableEq

inductive Request
  | chain (client : Client) (q : ChainRequest)
  | db (q : Query)
  | utcNow
  | unixSeconds
  | newUuid
  | lastHarvest (clock : HarvestClock)
  | setLastHarvest (clock : HarvestClock) (seconds : UInt64)
  | newWallet
  | newPredictionService
  | cachedDecimals (token : TokenAccount)
  | cacheDecimals (token : TokenAccount) (decimals : ℕ)

@[reducible] def Answer : Request → Type
  | .chain _ q => ChainReply q
  | .db q => Except String (Persistence.Reply q)
  | .utcNow => Time
  | .unixSeconds => UInt64
  | .newUuid => String
  | .lastHarvest _ => UInt64
  | .setLastHarvest .. => Unit
  | .newWallet => Option Wallet
  | .newPredictionService => Except String Unit
  | .cachedDecimals _ => Option ℕ
  | .cacheDecimals .. => Unit

namespace Request

/-- Where a transaction or a transfer is sent, and who signs it. -/
def sender : Request → Option (Client × AccountId)
  | .chain client (.exec tx) => some (client, tx.signer)
  | .chain client (.transferNativeToken signer _ _) => some (client, signer)
  | _ => none

/-- A request to the chain goes through `client`, and is signed by `wallet` if it has to be. -/
def Through (client : Client) (wallet : Wallet) : Request → Prop
  | .chain c (.exec tx) => c = client ∧ tx.signer = wallet.accountId
  | .chain c (.transferNativeToken signer _ _) => c = client ∧ signer = wallet.accountId
  | .chain c _ => c = client
  | _ => True

/-- Market data is read in one of two ways: as of a time that is at most `now`, or, with no
bound, in its newest state. Rates are quoted in `wnear`. -/
def Dated (now : Time) (wnear : TokenAccount) : Request → Prop
  | .db (.readFromDb timestamp _) => timestamp = none
  | .db (.latestRate _ quote) => quote = wnear
  | .db (.allLatestRates quote) => quote = wnear
  | .db (.byVolatilityInTimeRange _ stop _) => stop ≤ now
  | .db (.ratesInTimeRange _ stop _ _) => stop ≤ now
  | .db (.latestFreshPredictions _ asOf) => asOf ≤ now
  | _ => True

def Confined (client : Client) (wallet : Wallet) (now : Time) (wnear : TokenAccount)
    (q : Request) : Prop :=
  q.Through client wallet ∧ q.Dated now wnear

/-- No evaluation period is added or removed. -/
def KeepsPeriods : Request → Prop
  | .db (.insertPeriod _) | .db (.cleanupOldRecords _) => False
  | _ => True

/-- The requests of trading, whatever the client and the wallet. -/
def Quiet (now : Time) (wnear : TokenAccount) (q : Request) : Prop :=
  q.Dated now wnear ∧ q.KeepsPeriods

def Trading (client : Client) (wallet : Wallet) (now : Time) (wnear : TokenAccount)
    (q : Request) : Prop :=
  q.Through client wallet ∧ q.Quiet now wnear

end Request

abbrev TradeProgram := Program Request Answer String

abbrev TradeExchange := Exchange Request Answer

/-- The transfers of NEAR that reported success, with their receivers. -/
def transfers (τ : List TradeExchange) : List (AccountId × ℕ) :=
  τ.filterMap fun
    | ⟨.chain _ (.transferNativeToken _ receiver amount), .succeeded ..⟩ => some (receiver, amount)
    | _ => none

@[simp] theorem transfers_append (τ υ : List TradeExchange) :
    transfers (τ ++ υ) = transfers τ ++ transfers υ := List.filterMap_append

def query (q : Query) : TradeProgram (Persistence.Reply q) := do .ofExcept (← .perform (.db q))

/-- `context`: the error of the call is replaced. -/
def withContext {α : Type} (message : String) (p : TradeProgram α) : TradeProgram α := do
  match ← p.attempt with
  | .ok a => pure a
  | .error _ => .fail message

def getDeposits (client : Client) (account : AccountId) :
    TradeProgram (SortedMap TokenAccount U128) := do
  .ofExcept (← .perform (.chain client (.getDeposits account)))

def wnearBalanceOf (client : Client) (account : AccountId) : TradeProgram ℕ := do
  let balance ← .ofExcept (← .perform (.chain client (.wnearBalanceOf account)))
  pure balance.toNat

def getNativeAmount (client : Client) (account : AccountId) : TradeProgram ℕ := do
  let amount ← .ofExcept (← .perform (.chain client (.nativeAmount account)))
  pure amount.toNat

def depositOf (deposits : SortedMap TokenAccount U128) (token : TokenAccount) : U128 :=
  (deposits.get token).getD 0

/-- `wait_for_success`. The text of a failure is that of the chain, after `label` unless sending
failed. -/
def Sent.result (label : String) : Sent → Except String (String × Except String ℕ)
  | .refused message => .error message
  | .failed message => .error (label ++ message)
  | .reverted _ message => .error (label ++ message)
  | .succeeded id output => .ok (id, output)

/-- `wait_for_executed`, which does not look at how the transaction ended. -/
def Sent.executed : Sent → Except String String
  | .refused message => .error message
  | .failed message => .error message
  | .reverted id _ => .ok id
  | .succeeded id _ => .ok id

def execute (client : Client) (tx : Transaction) (label : String) :
    TradeProgram (String × Except String ℕ) := do
  .ofExcept (Sent.result label (← .perform (.chain client (.exec tx))))

def transferNativeToken (client : Client) (wallet : Wallet) (receiver : AccountId) (amount : ℕ) :
    TradeProgram String := do
  let request := Request.chain client (.transferNativeToken wallet.signer receiver amount)
  let (id, _) ← .ofExcept (Sent.result "" (← .perform request))
  pure id

/-- The same transfer, waiting only until it was executed. -/
def transferNativeTokenExecuted (client : Client) (wallet : Wallet) (receiver : AccountId)
    (amount : ℕ) : TradeProgram String := do
  let request := Request.chain client (.transferNativeToken wallet.signer receiver amount)
  .ofExcept (Sent.executed (← .perform request))

def wrap (client : Client) (wallet : Wallet) (amount : ℕ) : TradeProgram Unit := do
  let _ ← execute client ⟨wallet.signer, .nearDeposit, amount⟩ ""

def unwrap (client : Client) (wallet : Wallet) (amount : ℕ) (label : String) :
    TradeProgram Unit := do
  let _ ← execute client ⟨wallet.signer, .nearWithdraw amount, 1⟩ label

def deposit (client : Client) (wallet : Wallet) (token : TokenAccount) (amount : ℕ) :
    TradeProgram Unit := do
  let _ ← execute client ⟨wallet.signer, .ftTransferCall token amount, 1⟩ ""

def withdraw (client : Client) (wallet : Wallet) (token : TokenAccount) (amount : ℕ)
    (label : String) : TradeProgram Unit := do
  let _ ← execute client ⟨wallet.signer, .withdraw token amount, 1⟩ label

/-- How storage set-up talks to a client. -/
def storageRequest : Storage.Request → ChainRequest
  | .storageBalanceOf account => .storageBalanceOf account
  | .storageBalanceBounds => .storageBalanceBounds
  | .getDeposits account => .getDeposits account
  | .exec tx => .exec ⟨tx.signer, .storage tx.method, tx.deposit⟩

def storageAnswer : (q : Storage.Request) → ChainReply (storageRequest q) → Storage.Answer q
  | .storageBalanceOf _, a => a
  | .storageBalanceBounds, a => a
  | .getDeposits _, a => a.map fun deposits ↦ deposits.map BitVec.toNat
  | .exec _, .refused message => .error message
  | .exec _, .failed message => .error message
  | .exec _, .reverted _ message => .error message
  | .exec _, .succeeded .. => .ok ()

def maxTopUpFromConfig (cfg : ConfigAccess) : ℕ :=
  min cfg.refStorageMaxTopUpYoctonear Config.refStorageMaxTopUpAbsoluteCeiling

def ensureRefStorageSetup (client : Client) (wallet : Wallet)
    (tokens keep : List TokenAccount) (maxTopUp : ℕ) : TradeProgram Unit :=
  (Storage.ensureRefStorageSetup wallet tokens keep maxTopUp).embed
    (fun q ↦ .chain client (storageRequest q)) storageAnswer StorageError.message

section Uses

open Program Request

variable {P : Request → Prop} {client : Client} {wallet : Wallet} {now : Time}
  {wnear : TokenAccount}

theorem confined_of_trading {α : Type} {p : TradeProgram α}
    (h : p.Uses (Trading client wallet now wnear)) : p.Uses (Confined client wallet now wnear) :=
  h.mono fun _ hq ↦ ⟨hq.1, hq.2.1⟩

theorem quiet_of_trading {α : Type} {p : TradeProgram α}
    (h : p.Uses (Trading client wallet now wnear)) : p.Uses (Quiet now wnear) :=
  h.mono fun _ hq ↦ hq.2

theorem uses_query {q : Query} (hq : P (.db q)) : (query q).Uses P :=
  (uses_perform hq).bind fun _ ↦ uses_ofExcept _

theorem uses_withContext {α : Type} {message : String} {p : TradeProgram α} (hp : p.Uses P) :
    (withContext message p).Uses P := by
  refine hp.attempt.bind fun result ↦ ?_
  cases result <;> trivial

theorem uses_getDeposits {account : AccountId} :
    (getDeposits client account).Uses (Trading client wallet now wnear) :=
  (uses_perform ⟨rfl, trivial, trivial⟩).bind fun _ ↦ uses_ofExcept _

theorem uses_wnearBalanceOf {account : AccountId} :
    (wnearBalanceOf client account).Uses (Trading client wallet now wnear) :=
  (uses_perform ⟨rfl, trivial, trivial⟩).bind fun _ ↦ (uses_ofExcept _).bind fun _ ↦ trivial

theorem uses_getNativeAmount {account : AccountId} :
    (getNativeAmount client account).Uses (Trading client wallet now wnear) :=
  (uses_perform ⟨rfl, trivial, trivial⟩).bind fun _ ↦ (uses_ofExcept _).bind fun _ ↦ trivial

theorem uses_execute {call : Call} {attached : ℕ} {label : String} :
    (execute client ⟨wallet.signer, call, attached⟩ label).Uses
      (Trading client wallet now wnear) :=
  (uses_perform ⟨⟨rfl, rfl⟩, trivial, trivial⟩).bind fun _ ↦ uses_ofExcept _

variable {amount : ℕ}

theorem uses_transferNativeToken {receiver : AccountId} :
    (transferNativeToken client wallet receiver amount).Uses
      (Trading client wallet now wnear) :=
  (uses_perform ⟨⟨rfl, rfl⟩, trivial, trivial⟩).bind fun _ ↦ (uses_ofExcept _).bind fun _ ↦ trivial

theorem uses_transferNativeTokenExecuted {receiver : AccountId} :
    (transferNativeTokenExecuted client wallet receiver amount).Uses
      (Trading client wallet now wnear) :=
  (uses_perform ⟨⟨rfl, rfl⟩, trivial, trivial⟩).bind fun _ ↦ uses_ofExcept _

theorem uses_wrap :
    (wrap client wallet amount).Uses (Trading client wallet now wnear) :=
  uses_execute.bind fun _ ↦ trivial

theorem uses_unwrap {label : String} :
    (unwrap client wallet amount label).Uses (Trading client wallet now wnear) :=
  uses_execute.bind fun _ ↦ trivial

theorem uses_deposit {token : TokenAccount} :
    (deposit client wallet token amount).Uses (Trading client wallet now wnear) :=
  uses_execute.bind fun _ ↦ trivial

theorem uses_withdraw {token : TokenAccount} {label : String} :
    (withdraw client wallet token amount label).Uses (Trading client wallet now wnear) :=
  uses_execute.bind fun _ ↦ trivial

theorem uses_ensureRefStorageSetup {tokens keep : List TokenAccount} {maxTopUp : ℕ} :
    (ensureRefStorageSetup client wallet tokens keep maxTopUp).Uses
      (Trading client wallet now wnear) := by
  refine Uses.embed ?_
  rw [Storage.ensureRefStorageSetup]
  split_ifs
  · trivial
  · refine (uses_initialRegistration ⟨rfl, trivial, trivial⟩ ⟨rfl, trivial, trivial⟩
      (fun _ ↦ ⟨⟨rfl, rfl⟩, trivial, trivial⟩) maxTopUp).bind fun initialDeposit ↦ ?_
    exact uses_planAndExecute ⟨rfl, trivial, trivial⟩ ⟨rfl, trivial, trivial⟩
      ⟨rfl, trivial, trivial⟩ (fun _ ↦ ⟨⟨rfl, rfl⟩, trivial, trivial⟩)
      (fun _ ↦ ⟨⟨rfl, rfl⟩, trivial, trivial⟩) (fun _ _ ↦ ⟨⟨rfl, rfl⟩, trivial, trivial⟩) _ _

end Uses

end Zaciraci.Trade
