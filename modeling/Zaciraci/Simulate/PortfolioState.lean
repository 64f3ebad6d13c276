import Zaciraci.Lib.SortedMap
import Zaciraci.Units

namespace Zaciraci.Simulate

open Lib

def toU128OrWarn (value : BigDecimal) : ℕ := (BigDecimal.toU128 value).getD 0

def toI128OrWarn (value : BigDecimal) : ℤ :=
  let n := BigDecimal.trunc value
  if -2 ^ 127 ≤ n ∧ n < 2 ^ 127 then n else 0

def checkedAddOrSaturate (a b : ℤ) : ℤ := max (-2 ^ 127) (min (a + b) (2 ^ 127 - 1))

inductive SwapMethod
  | poolBased
  | dbRate
deriving DecidableEq

structure SwapEvent where
  timestamp : Time
  tokenIn : TokenAccount
  amountIn : TokenAmount
  tokenOut : TokenAccount
  amountOut : TokenAmount
  swapMethod : SwapMethod
  poolIds : List ℕ
deriving DecidableEq

/-- The part of the portfolio that swaps read and change. -/
structure PortfolioState where
  cashBalance : BigDecimal
  holdings : SortedMap TokenAccount TokenAmount
  costBasis : SortedMap TokenAccount BigDecimal
  realizedPnl : ℤ
  realizedPnlByToken : SortedMap TokenAccount ℤ
  swapEvents : List SwapEvent

structure SwapResult where
  actualIn : ℕ
  actualOut : ℕ

namespace PortfolioState

def new (initialCapital : BigDecimal) : PortfolioState :=
  ⟨initialCapital, .empty, .empty, 0, .empty, []⟩

def unitsOf (state : PortfolioState) (token : TokenAccount) : ℕ :=
  match state.holdings.get token with
  | some amount => toU128OrWarn amount.smallestUnits
  | none => 0

/-- The balance a swap can draw on. Wrapped NEAR is the cash of the portfolio. -/
def balanceOf (wnear : TokenAccount) (state : PortfolioState) (token : TokenAccount) : ℕ :=
  if token = wnear then toU128OrWarn state.cashBalance else state.unitsOf token

def scaleOutput (toAmount actual requested : ℕ) : ℕ :=
  if actual = requested then toAmount
  else toU128OrWarn (BigDecimal.trunc (BigDecimal.div (toAmount * actual) requested))

def averageCostOfSold (state : PortfolioState) (token : TokenAccount)
    (sellAmount totalHolding : ℕ) : BigDecimal :=
  let totalCost := (state.costBasis.get token).getD 0
  if totalCost = 0 ∨ sellAmount = 0 then 0
  else if sellAmount = totalHolding then totalCost
  else if 0 < totalHolding then ⌊BigDecimal.div (totalCost * sellAmount) totalHolding⌋
  else 0

def isClosed (state : PortfolioState) (token : TokenAccount) : Bool :=
  match state.holdings.get token with
  | some amount => amount.isZero
  | none => true

/-- Realised profit by average cost. The holding is already reduced by what was sold. -/
def recordSellPnl (state : PortfolioState) (token : TokenAccount) (sellAmount : ℕ)
    (sellProceeds : BigDecimal) : PortfolioState :=
  let costOfSold := state.averageCostOfSold token sellAmount (state.unitsOf token + sellAmount)
  let pnl := toI128OrWarn ⌊sellProceeds - costOfSold⌋
  let costBasis := match state.costBasis.get token with
    | some basis => state.costBasis.insert token (max (basis - costOfSold) 0)
    | none => state.costBasis
  { state with
    costBasis := if state.isClosed token then costBasis.erase token else costBasis
    realizedPnl := checkedAddOrSaturate state.realizedPnl pnl
    realizedPnlByToken := state.realizedPnlByToken.insert token
      (checkedAddOrSaturate ((state.realizedPnlByToken.get token).getD 0) pnl) }

def addToCostBasis (state : PortfolioState) (token : TokenAccount) (amount : BigDecimal) :
    PortfolioState :=
  { state with
    costBasis := state.costBasis.insert token ((state.costBasis.get token).getD 0 + amount) }

def deductHolding (state : PortfolioState) (token : TokenAccount) (units : ℕ) :
    PortfolioState :=
  match state.holdings.get token with
  | some holding =>
    let left := { holding with smallestUnits := max (holding.smallestUnits - units) 0 }
    { state with holdings := state.holdings.insert token left }
  | none => state

def removeIfClosed (state : PortfolioState) (token : TokenAccount) : PortfolioState :=
  if state.isClosed token then { state with holdings := state.holdings.erase token } else state

def addHolding (state : PortfolioState) (token : TokenAccount) (units decimals : ℕ) :
    PortfolioState :=
  let entry := (state.holdings.get token).getD ⟨0, decimals⟩
  let grown := { entry with smallestUnits := entry.smallestUnits + units }
  { state with holdings := state.holdings.insert token grown }

/-- The input is cut to the balance and the output in proportion. Nothing happens when either
of them is then zero. -/
def executeSimulatedSwap (wnear : TokenAccount) (state : PortfolioState)
    (fromToken : TokenAccount) (fromAmount : ℕ) (toToken : TokenAccount)
    (toAmount toDecimals : ℕ) : Option (SwapResult × PortfolioState) :=
  let fromBalance := state.balanceOf wnear fromToken
  let actualFrom := min fromAmount fromBalance
  let actualTo := scaleOutput toAmount actualFrom fromAmount
  if actualFrom = 0 ∨ actualTo = 0 then none
  else
    let transferredCost := if fromToken ≠ wnear ∧ toToken ≠ wnear then
      state.averageCostOfSold fromToken actualFrom fromBalance else 0
    let sold := if fromToken = wnear then
        { state with cashBalance := max (state.cashBalance - actualFrom) 0 }
      else
        let proceeds := if toToken = wnear then (actualTo : BigDecimal) else transferredCost
        ((state.deductHolding fromToken actualFrom).recordSellPnl fromToken actualFrom
          proceeds).removeIfClosed fromToken
    let bought := if toToken = wnear then
        { sold with cashBalance := sold.cashBalance + actualTo }
      else
        let held := sold.addHolding toToken actualTo toDecimals
        if fromToken = wnear then held.addToCostBasis toToken actualFrom
        else if transferredCost = 0 then held
        else held.addToCostBasis toToken transferredCost
    some (⟨actualFrom, actualTo⟩, bought)

def tokenAmountToYocto (rates : TokenAccount → Option ExchangeRate) (token : TokenAccount)
    (amount : TokenAmount) : ℕ :=
  match rates token with
  | some rate => if rate.isZero then 0 else toU128OrWarn (amount.value rate * yoctoPerNear)
  | none => 0

/-- A token that yields nothing stays. -/
def liquidateToken (rates : TokenAccount → Option ExchangeRate) (state : PortfolioState)
    (position : TokenAccount × TokenAmount) : PortfolioState :=
  let sellYocto := tokenAmountToYocto rates position.1 position.2
  if sellYocto = 0 then state
  else
    let removed := { state with holdings := state.holdings.erase position.1 }
    let sold := removed.recordSellPnl position.1 (toU128OrWarn position.2.smallestUnits) sellYocto
    { sold with cashBalance := sold.cashBalance + sellYocto }

/-- The positions are those from before the first sale. -/
def liquidateAll (rates : TokenAccount → Option ExchangeRate) (state : PortfolioState) :
    PortfolioState :=
  (state.holdings.entries.filter fun position ↦ !position.2.isZero).foldl (liquidateToken rates)
    state

end PortfolioState

end Zaciraci.Simulate
