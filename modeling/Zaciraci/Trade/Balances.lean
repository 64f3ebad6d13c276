import Zaciraci.Trade.Request

namespace Zaciraci.Trade

open Lib Storage

/-- Seconds are unsigned, and their difference wraps around. -/
def isTimeToHarvest (clock : HarvestClock) (cfg : ConfigAccess) : TradeProgram Bool := do
  let last ← .perform (.lastHarvest clock)
  let now ← .perform .unixSeconds
  pure (cfg.harvestIntervalSeconds < now - last)

def updateLastHarvest (clock : HarvestClock) : TradeProgram Unit := do
  let now ← .perform .unixSeconds
  .perform (Request.setLastHarvest clock now)

def parseHarvestAccount (value : String) : TradeProgram AccountId :=
  match parseAccountId value with
  | .ok account => pure account
  | .error err => .panic s!"Failed to parse HARVEST_ACCOUNT_ID `{value}`: {err}"

namespace Balances

def defaultRequiredBalance : ℕ := yoctoPerNear

def harvestAccount (cfg : ConfigAccess) : TradeProgram AccountId :=
  match cfg.harvestAccountId with
  | .ok value => parseHarvestAccount value
  | .error err => .panic s!"HARVEST_ACCOUNT_ID config is required: {err}"

def multiplyByBalanceMultiplier (token : ℕ) (cfg : ConfigAccess) : ℕ :=
  saturatingMul token cfg.harvestBalanceMultiplier

def balanceOfStartToken (client : Client) (wallet : Wallet) (token : TokenAccount) :
    TradeProgram ℕ := do
  let deposits ← getDeposits client wallet.accountId
  pure (depositOf deposits token).toNat

/-- Wraps what is missing from the wanted balance, as far as the reserve of the account allows,
and returns how much that was. -/
def wrapMissing (client : Client) (wallet : Wallet) (wanted wrappedBalance : ℕ)
    (cfg : ConfigAccess) : TradeProgram ℕ :=
  if wrappedBalance < wanted then do
    let wrapping := wanted - wrappedBalance
    let nativeBalance ← getNativeAmount client wallet.accountId
    let available := nativeBalance - nearToYocto cfg.tradeAccountReserve
    let amount := if available < wrapping then available else wrapping
    (wrap client wallet amount).when (0 < amount)
    pure amount
  else pure 0

def refill (isMainnet : Bool) (client : Client) (wallet : Wallet) (wanted : ℕ)
    (cfg : ConfigAccess) : TradeProgram Unit := do
  let wrappedBalance ← wnearBalanceOf client wallet.accountId
  let actualWrapping ← wrapMissing client wallet wanted wrappedBalance cfg
  let totalDeposit := saturatingAdd wrappedBalance actualWrapping
  (deposit client wallet (wnearToken isMainnet) totalDeposit).when (0 < totalDeposit)

def harvest (client : Client) (wallet : Wallet) (token : TokenAccount) (amount required : ℕ)
    (cfg : ConfigAccess) : TradeProgram Unit := do
  let beforeWithdraw ← getNativeAmount client wallet.accountId
  let due ← (if beforeWithdraw < nearToYocto cfg.tradeAccountReserve then pure true
    else isTimeToHarvest .balances cfg)
  (withdraw client wallet token amount "").when due
  let nativeBalance := saturatingAdd beforeWithdraw (if due then amount else 0)
  let upper := multiplyByBalanceMultiplier required cfg
  let surplus ← (if upper < nativeBalance then isTimeToHarvest .balances cfg else pure false)
  if surplus then
    let target ← harvestAccount cfg
    let _ ← transferNativeToken client wallet target (nativeBalance - upper)
    updateLastHarvest .balances

/-- The balance of `token` in the exchange, after a refill where it is short of what is
required. The history of inputs that would give a default never records any, so that default
is one NEAR. -/
def start (isMainnet : Bool) (client : Client) (wallet : Wallet) (token : TokenAccount)
    (requiredBalance : Option ℕ) (cfg : ConfigAccess) : TradeProgram ℕ := do
  let requiredBalance := requiredBalance.getD defaultRequiredBalance
  let deposited ← balanceOfStartToken client wallet token
  if deposited < requiredBalance then
    refill isMainnet client wallet (requiredBalance - deposited) cfg
    balanceOfStartToken client wallet token
  else
    let upper := multiplyByBalanceMultiplier requiredBalance cfg
    -- the result of the harvest is only logged
    let harvested := (harvest client wallet (wnearToken isMainnet) (deposited - upper)
      requiredBalance cfg).attempt
    (do let _ ← harvested).when (upper < deposited)
    pure deposited

def depositWrapNearToRef (isMainnet : Bool) (client : Client) (wallet : Wallet) (amount : ℕ)
    (cfg : ConfigAccess) : TradeProgram Unit := do
  let depositedBalance ← balanceOfStartToken client wallet (wnearToken isMainnet)
  if amount ≤ depositedBalance then pure ()
  else
    let shortage := amount - depositedBalance
    let wrappedBalance ← wnearBalanceOf client wallet.accountId
    let _ ← wrapMissing client wallet shortage wrappedBalance cfg
    let finalWrappedBalance ← wnearBalanceOf client wallet.accountId
    if finalWrappedBalance = 0 then .fail "No wrap.near balance available to deposit"
    else deposit client wallet (wnearToken isMainnet) (min shortage finalWrappedBalance)

end Balances

section Uses

open Program Request Balances

variable {client : Client} {wallet : Wallet} {now : Time} {wnear : TokenAccount}
  {clock : HarvestClock} {cfg : ConfigAccess} {isMainnet : Bool}

theorem uses_isTimeToHarvest :
    (isTimeToHarvest clock cfg).Uses (Trading client wallet now wnear) :=
  (uses_perform ⟨trivial, trivial, trivial⟩).bind fun _ ↦
    (uses_perform ⟨trivial, trivial, trivial⟩).bind fun _ ↦ trivial

theorem uses_updateLastHarvest :
    (updateLastHarvest clock).Uses (Trading client wallet now wnear) :=
  (uses_perform ⟨trivial, trivial, trivial⟩).bind fun _ ↦ uses_perform ⟨trivial, trivial, trivial⟩

theorem uses_parseHarvestAccount {P : Request → Prop} {value : String} :
    (parseHarvestAccount value).Uses P := by
  rw [parseHarvestAccount]
  split <;> trivial

theorem uses_harvestAccount {P : Request → Prop} : (harvestAccount cfg).Uses P := by
  rw [harvestAccount]
  split
  · exact uses_parseHarvestAccount
  · trivial

theorem uses_balanceOfStartToken {token : TokenAccount} :
    (balanceOfStartToken client wallet token).Uses (Trading client wallet now wnear) :=
  uses_getDeposits.bind fun _ ↦ trivial

theorem uses_wrapMissing {wanted wrapped : ℕ} :
    (wrapMissing client wallet wanted wrapped cfg).Uses (Trading client wallet now wnear) :=
  Uses.ite (uses_getNativeAmount.bind fun _ ↦ uses_wrap.when.bind fun _ ↦ trivial) trivial

theorem uses_refill {wanted : ℕ} :
    (refill isMainnet client wallet wanted cfg).Uses (Trading client wallet now wnear) :=
  uses_wnearBalanceOf.bind fun _ ↦ uses_wrapMissing.bind fun _ ↦ uses_deposit.when

theorem uses_harvest {token : TokenAccount} {amount required : ℕ} :
    (harvest client wallet token amount required cfg).Uses (Trading client wallet now wnear) := by
  refine uses_getNativeAmount.bind fun before ↦ Uses.bind ?_ fun due ↦
    uses_withdraw.when.bind fun _ ↦ Uses.bind ?_ fun surplus ↦ ?_
  · exact Uses.ite trivial uses_isTimeToHarvest
  · exact Uses.ite uses_isTimeToHarvest trivial
  · refine Uses.ite (uses_harvestAccount.bind fun target ↦ ?_) trivial
    exact uses_transferNativeToken.bind fun _ ↦ uses_updateLastHarvest

theorem uses_start {token : TokenAccount} {required : Option ℕ} :
    (Balances.start isMainnet client wallet token required cfg).Uses
      (Trading client wallet now wnear) := by
  refine uses_balanceOfStartToken.bind fun deposited ↦ Uses.ite ?_ ?_
  · exact uses_refill.bind fun _ ↦ uses_balanceOfStartToken
  · exact Uses.bind (Uses.when (uses_harvest.attempt.bind fun _ ↦ trivial)) fun _ ↦ trivial

theorem uses_depositWrapNearToRef {amount : ℕ} :
    (depositWrapNearToRef isMainnet client wallet amount cfg).Uses
      (Trading client wallet now wnear) := by
  refine uses_balanceOfStartToken.bind fun deposited ↦ Uses.ite trivial ?_
  refine uses_wnearBalanceOf.bind fun wrapped ↦ uses_wrapMissing.bind fun _ ↦ ?_
  exact uses_wnearBalanceOf.bind fun _ ↦ Uses.ite trivial uses_deposit

end Uses

end Zaciraci.Trade
