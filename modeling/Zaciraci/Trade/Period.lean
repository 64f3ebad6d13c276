import Zaciraci.Trade.Execution

namespace Zaciraci.Trade

open Lib Persistence Storage

/-- `wallet::new_wallet`, the account of the start-up configuration. -/
def newWallet : TradeProgram Wallet := do
  match ← .perform Request.newWallet with
  | some wallet => pure wallet
  | none => .panic "Failed to create wallet from config"

def nearToken : TokenAccount := ⟨"near"⟩

def defaultHarvestReserve : ℕ := yoctoPerNear

def harvestAccountId (cfg : ConfigAccess) : String :=
  match cfg.harvestAccountId with
  | .ok value => value
  | .error _ => "harvest.near"

def harvestAccount (cfg : ConfigAccess) : TradeProgram AccountId :=
  parseHarvestAccount (harvestAccountId cfg)

def executeHarvestTransfer (setting : Setting) (target : AccountId) (harvestAmount : BigDecimal)
    (periodId : String) (cfg : ConfigAccess) : TradeProgram Unit := do
  let amount := yoctoToU128 harvestAmount
  let wallet ← newWallet
  withdraw .standard wallet setting.wnear amount "Harvest failed at withdrawal step: "
  unwrap .standard wallet amount "Harvest failed at unwrap step: "
  let nativeBalance ← getNativeAmount .standard wallet.accountId
  let reserve := nearToYocto cfg.harvestReserveAmount
  if nativeBalance ≤ reserve then pure ()
  else
    let transferred := min amount (nativeBalance - reserve)
    let txHash ← transferNativeTokenExecuted .standard wallet target transferred
    let recorder ← TradeRecorder.new periodId
    recorder.recordTrade txHash setting.wnear ⟨transferred, 24⟩ nearToken ⟨transferred, 24⟩
      (some ⟨transferred, 24⟩)

/-- A tenth of what exceeds twice the initial value. -/
def harvestAmountOf (initialValue currentValue : BigDecimal) : BigDecimal :=
  (currentValue - initialValue * 2) * (1 / 10)

def checkAndExecuteHarvest (setting : Setting) (initialValue currentValue : BigDecimal)
    (periodId : String) (cfg : ConfigAccess) : TradeProgram BigDecimal :=
  if initialValue = 0 then pure 0
  else if initialValue * 2 < currentValue then do
    let harvestAmount := harvestAmountOf initialValue currentValue
    let target ← harvestAccount cfg
    if harvestAmount < nearToYocto cfg.harvestMinAmount then pure 0
    else
      let due ← isTimeToHarvest .trade cfg
      if due then
        executeHarvestTransfer setting target harvestAmount periodId cfg
        updateLastHarvest .trade
        pure harvestAmount
      else pure 0
  else pure 0

/-- Where no reserve is configured one NEAR is kept. -/
def unwrapReserve (cfg : ConfigAccess) : ℕ :=
  if nearToYocto cfg.harvestReserveAmount = 0 then defaultHarvestReserve
  else nearToYocto cfg.harvestReserveAmount

/-- The part of `unwrap_and_transfer_wnear` after the accounts are known. -/
def transferOut (setting : Setting) (wallet : Wallet) (target : AccountId) (cfg : ConfigAccess) :
    TradeProgram Unit := do
  let deposits ← getDeposits .standard wallet.accountId
  let wnearBalance := (depositOf deposits setting.wnear).toNat
  if wnearBalance = 0 then pure ()
  else
    withdraw .standard wallet setting.wnear wnearBalance "Withdraw failed: "
    unwrap .standard wallet wnearBalance "Unwrap failed: "
    let nativeBalance ← getNativeAmount .standard wallet.accountId
    if nativeBalance ≤ unwrapReserve cfg then pure ()
    else
      let _ ← transferNativeTokenExecuted .standard wallet target
        (nativeBalance - unwrapReserve cfg)

def unwrapAndTransferWnear (setting : Setting) (cfg : ConfigAccess) : TradeProgram Unit :=
  match cfg.harvestAccountId with
  | .error _ => pure ()
  | .ok id =>
    if id = "" then pure ()
    else
      match parseAccountId id with
      | .error e => .fail s!"Invalid HARVEST_ACCOUNT_ID: {e}"
      | .ok target => do
        let wallet ← newWallet
        if target = wallet.accountId then pure () else transferOut setting wallet target cfg

structure EvaluationPeriodResult where
  periodId : String
  isNewPeriod : Bool
  existingTokens : List TokenAccount
  liquidatedBalance : Option ℕ
  failedLiquidations : List TokenAccount
deriving DecidableEq

def minRetentionDays : ℕ := 30

/-- The clean-up that is spawned. Its result is only logged. -/
def cleanupOldEvaluationPeriods (retentionDays : UInt32) : TradeProgram Unit :=
  if retentionDays = 0 then pure ()
  else do
    let now ← .perform .utcNow
    let cutoff := now - max retentionDays.toNat minRetentionDays * day
    let _ ← (query (.cleanupOldRecords cutoff)).attempt

def createPeriod (initialValue : ℕ) (cfg : ConfigAccess) : TradeProgram EvaluationPeriod := do
  let uuid ← .perform .newUuid
  let startTime ← .perform .utcNow
  let createdAt ← .perform .utcNow
  let created ← query (.insertPeriod ⟨s!"eval_{uuid}", startTime, initialValue, none, createdAt⟩)
  cleanupOldEvaluationPeriods cfg.evaluationPeriodsRetentionDays
  pure created

/-- Trading goes on in a new period, or stops there. -/
def nextPeriod (setting : Setting) (cfg : ConfigAccess) (failedTokens : List TokenAccount)
    (balance : ℕ) : TradeProgram EvaluationPeriodResult :=
  if cfg.tradeEnabled then do
    let created ← createPeriod balance cfg
    pure ⟨created.periodId, true, [], some balance, failedTokens⟩
  else do
    let unwrapped := (unwrapAndTransferWnear setting cfg).attempt
    (do let _ ← unwrapped).when cfg.tradeUnwrapOnStop
    pure ⟨"", false, [], some balance, failedTokens⟩

/-- The balance after a harvest. One that failed counts as none. -/
def postHarvestBalance (setting : Setting) (client : Client) (wallet : Wallet)
    (finalBalance : ℕ) (harvested : Except String BigDecimal) : TradeProgram ℕ :=
  if harvested.toOption.getD 0 = 0 then pure finalBalance
  else Balances.balanceOfStartToken client wallet setting.wnear

/-- Liquidation, harvest and what comes after it, for a period whose days are over. -/
def endPeriod (setting : Setting) (client : Client) (wallet : Wallet) (cfg : ConfigAccess)
    (period : EvaluationPeriod) : TradeProgram EvaluationPeriodResult := do
  let liquidation ← liquidateAllPositions setting client wallet cfg
  let finalBalance := liquidation.wrapNearBalance.toNat
  let harvested ← (checkAndExecuteHarvest setting period.initialValue finalBalance
    period.periodId cfg).attempt
  let balance ← postHarvestBalance setting client wallet finalBalance harvested
  nextPeriod setting cfg liquidation.failedTokens balance

def EvaluationPeriod.tokens (period : EvaluationPeriod) : List TokenAccount :=
  ((period.selectedTokens.getD []).reduceOption).filterMap fun s ↦ (parseToken s).toOption

/-- A period counts as new until it has tokens or transactions. -/
def continuePeriod (period : EvaluationPeriod) : TradeProgram EvaluationPeriodResult := do
  let transactionCount ← query (.countByEvaluationPeriod period.periodId)
  let tokens := EvaluationPeriod.tokens period
  pure ⟨period.periodId, tokens.isEmpty && transactionCount == 0, tokens, none, []⟩

def HasEnded (cfg : ConfigAccess) (currentTime : Time) (period : EvaluationPeriod) : Prop :=
  (cfg.tradeEvaluationDays.toNat : ℤ) ≤ numDays (currentTime - period.startTime)

instance (cfg : ConfigAccess) (currentTime : Time) (period : EvaluationPeriod) :
    Decidable (HasEnded cfg currentTime period) :=
  inferInstanceAs (Decidable (_ ≤ _))

def manageEvaluationPeriod (setting : Setting) (client : Client) (wallet : Wallet)
    (currentTime : Time) (availableFunds : ℕ) (cfg : ConfigAccess) :
    TradeProgram EvaluationPeriodResult := do
  match ← query .latestPeriod with
  | none =>
    let created ← createPeriod availableFunds cfg
    pure ⟨created.periodId, true, [], none, []⟩
  | some period =>
    if HasEnded cfg currentTime period then endPeriod setting client wallet cfg period
    else continuePeriod period

section Uses

open Program Request

variable {client : Client} {wallet : Wallet} {now : Time} {setting : Setting}
  {cfg : ConfigAccess} {wnear : TokenAccount}

theorem quiet_of_all_trading {α : Type} {p : TradeProgram α}
    (h : ∀ client wallet, p.Uses (Trading client wallet now wnear)) : p.Uses (Quiet now wnear) :=
  quiet_of_trading (h .given ⟨""⟩)

theorem uses_newWallet : newWallet.Uses (Trading client wallet now wnear) := by
  refine (uses_perform ⟨trivial, trivial, trivial⟩).bind fun wallet ↦ ?_
  cases wallet <;> trivial

theorem uses_executeHarvestTransfer {target : AccountId} {amount : BigDecimal}
    {periodId : String} :
    (executeHarvestTransfer setting target amount periodId cfg).Uses (Quiet now wnear) := by
  refine (quiet_of_all_trading fun _ _ ↦ uses_newWallet).bind fun created ↦ ?_
  refine quiet_of_trading (?_ : Uses (Trading .standard created now wnear) _)
  refine uses_withdraw.bind fun _ ↦ uses_unwrap.bind fun _ ↦ ?_
  refine uses_getNativeAmount.bind fun _ ↦ Uses.ite trivial ?_
  refine uses_transferNativeTokenExecuted.bind fun _ ↦ ?_
  exact uses_newRecorder.bind fun _ ↦ uses_recordTrade

theorem uses_checkAndExecuteHarvest {initial current : BigDecimal} {periodId : String} :
    (checkAndExecuteHarvest setting initial current periodId cfg).Uses (Quiet now wnear) := by
  refine Uses.ite trivial (Uses.ite ?_ trivial)
  refine uses_parseHarvestAccount.bind fun target ↦ Uses.ite trivial ?_
  refine (quiet_of_all_trading fun _ _ ↦ uses_isTimeToHarvest).bind fun due ↦ Uses.ite ?_ trivial
  refine uses_executeHarvestTransfer.bind fun _ ↦ ?_
  exact (quiet_of_all_trading fun _ _ ↦ uses_updateLastHarvest).bind fun _ ↦ trivial

theorem uses_createPeriod {initialValue : ℕ} :
    (createPeriod initialValue cfg).Uses (Confined client wallet now wnear) := by
  refine (uses_perform ⟨trivial, trivial⟩).bind fun _ ↦ (uses_perform ⟨trivial, trivial⟩).bind
    fun _ ↦ (uses_perform ⟨trivial, trivial⟩).bind fun _ ↦ ?_
  refine (uses_query ⟨trivial, trivial⟩).bind fun created ↦ Uses.bind ?_ fun _ ↦ trivial
  refine Uses.ite trivial ((uses_perform ⟨trivial, trivial⟩).bind fun _ ↦ ?_)
  exact (uses_query ⟨trivial, trivial⟩).attempt.bind fun _ ↦ trivial

theorem uses_continuePeriod {period : EvaluationPeriod} :
    (continuePeriod period).Uses (Confined client wallet now wnear) :=
  (uses_query ⟨trivial, trivial⟩).bind fun _ ↦ trivial

theorem uses_postHarvestBalance {finalBalance : ℕ} {harvested : Except String BigDecimal} :
    (postHarvestBalance setting client wallet finalBalance harvested).Uses
      (Trading client wallet now wnear) :=
  Uses.ite trivial uses_balanceOfStartToken

end Uses

end Zaciraci.Trade
