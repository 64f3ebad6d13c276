import Zaciraci.Dex.TokenPath
import Zaciraci.Path.Hops
import Zaciraci.Trade.Balances

namespace Zaciraci.Trade

open Lib Dex Zaciraci.Path Persistence Storage

/-- What is fixed for the whole process: the network, the hash order of its collections and
how long a path search is followed. -/
structure Setting where
  isMainnet : Bool
  std : Containers
  fuel : ℕ

def Setting.wnear (setting : Setting) : TokenAccount := wnearToken setting.isMainnet

inductive SlippagePolicy
  | fromExpectedReturn (ratio : Float)
  | unprotected

def minSlippageBudget : Float := 0.005

def maxSlippageBudget : Float := 0.15

def clamp (x low high : Float) : Float :=
  if x < low then low else if high < x then high else x

def calculateMinOut (estimatedOutput : ℕ) : SlippagePolicy → Except String ℕ
  | .unprotected => .ok 0
  | .fromExpectedReturn ratio =>
    let budget := clamp ratio.abs minSlippageBudget maxSlippageBudget
    let protectionBps := 10000 - (budget * 10000.0).toUInt64.toNat
    match checkedMul estimatedOutput protectionBps with
    | some product => .ok (product / 10000)
    | none =>
      .error s!"min_out overflow: estimated={estimatedOutput}, protection_bps={protectionBps}"

def getTokenDecimalsCached (client : Client) (token : TokenAccount) : TradeProgram ℕ := do
  match ← .perform (Request.cachedDecimals token) with
  | some decimals => pure decimals
  | none =>
    let decimals ← .ofExcept (← .perform (.chain client (.ftMetadata token)))
    .perform (Request.cacheDecimals token decimals)
    pure decimals

structure TradeRecorder where
  batchId : String
  evaluationPeriodId : String

def TradeRecorder.new (evaluationPeriodId : String) : TradeProgram TradeRecorder := do
  let batchId ← .perform .newUuid
  pure ⟨batchId, evaluationPeriodId⟩

def TradeRecorder.recordTrade (recorder : TradeRecorder) (txId : String)
    (fromToken : TokenAccount) (fromAmount : TokenAmount) (toToken : TokenAccount)
    (toAmount : TokenAmount) (actualToAmount : Option TokenAmount) : TradeProgram Unit := do
  let timestamp ← .perform .utcNow
  withContext s!"Failed to insert trade transaction: {txId}" (query (.insertTransaction
    { txId, tradeBatchId := recorder.batchId
      fromToken, fromAmount := fromAmount.smallestUnits
      toToken, toAmount := toAmount.smallestUnits
      timestamp, evaluationPeriodId := recorder.evaluationPeriodId
      actualToAmount := actualToAmount.map (·.smallestUnits) }))

/-- `read_from_db(None)`. -/
def readPools : TradeProgram PoolInfoList := do
  let now ← .perform .utcNow
  query (.readFromDb none now)

def quoted (wrapper : String) (token : TokenAccount) : String :=
  wrapper ++ "(TokenAccount(AccountId(" ++ token.account.quote ++ ")))"

def pathErrorMessage : Failure TokenAccount → String
  | .dex e => e.message
  | .tokenNotInPool token => (Dex.Error.tokenNotFound token.account).message
  | .startTokenNotFound start goal =>
    "start token not found: " ++ quoted "TokenInAccount" start ++ " X-> " ++
      quoted "TokenOutAccount" goal
  | .goalTokenNotFound start goal =>
    "goal token not found: " ++ quoted "TokenInAccount" start ++ " ->X " ++
      quoted "TokenOutAccount" goal
  | .invalidEdge tokenIn tokenOut =>
    "invalid edge: " ++ quoted "TokenInAccount" tokenIn ++ " -> " ++
      quoted "TokenOutAccount" tokenOut

/-- The graph of the pools with the paths from `start`, and the tokens it can trade. A search
that does not return stops the cycle. -/
def updatedGraph (setting : Setting) (pools : PoolInfoList) (start : TokenAccount)
    (label : String) : Outcome String (List TokenAccount × TokenGraph) :=
  match (TokenGraph.new setting.std pools).updateGraph setting.std setting.fuel start with
  | none => .panicked "the path search does not return"
  | some (.error e, _) => .err (label ++ pathErrorMessage e)
  | some (.ok goals, graph) => .ok (goals, graph)

def findPath (setting : Setting) (pools : PoolInfoList) (start goal : TokenAccount) :
    Outcome String TokenPath := do
  let (_, graph) ← updatedGraph setting pools start s!"Failed to update graph from {start}: "
  match graph.getPath start goal with
  | none => .panicked "should be pair id"
  | some (.error e) => .err (pathErrorMessage e)
  | some (.ok path) =>
    match TokenPath.validateLength path with
    | .error e => .err e.message
    | .ok () => .ok path

structure SwapArg where
  initialIn : U128
  minOut : ℕ

def buildSwapActionsFrom (firstId lastId minOut : ℕ) :
    TokenPath → U128 → Outcome String (List SwapAction × U128)
  | [], amount => .ok ([], amount)
  | pair :: path, amount =>
    match pair.estimateReturn amount with
    | .error e => .err e.message
    | .ok nextOut => do
      let tokenIn ← pair.tokenInId.mapErr Dex.Error.message
      let tokenOut ← pair.tokenOutId.mapErr Dex.Error.message
      let (actions, out) ← buildSwapActionsFrom firstId lastId minOut path nextOut
      -- hops are told apart by their pools: a pool that comes again counts as first or last
      .ok ({ poolId := pair.pool.id
             tokenIn
             amountIn := if pair.pool.id = firstId then some amount.toNat else none
             tokenOut
             minAmountOut := if pair.pool.id = lastId then minOut else 0 } :: actions, out)

def buildSwapActions (path : TokenPath) (arg : SwapArg) : Outcome String (List SwapAction × U128) :=
  match path.head?, path.getLast? with
  | some first, some last =>
    buildSwapActionsFrom first.pool.id last.pool.id arg.minOut path arg.initialIn
  | _, _ => .ok ([], arg.initialIn)

/-- The actions lead from `a` through the tokens of the list, one after the other. -/
def Follows : TokenAccount → List TokenAccount → List SwapAction → Prop
  | _, [], [] => True
  | a, b :: tokens, action :: actions =>
    action.tokenIn = a ∧ action.tokenOut = b ∧ Follows b tokens actions
  | _, _, _ => False

section Actions

variable {firstId lastId minOut : ℕ} {path : TokenPath} {amount out : U128}
  {actions : List SwapAction}

theorem buildSwapActions_cons (pair : TokenPair) (path : TokenPath) (arg : SwapArg) :
    buildSwapActions (pair :: path) arg = buildSwapActionsFrom pair.pool.id
      ((pair :: path).getLast (List.cons_ne_nil pair path)).pool.id arg.minOut (pair :: path)
      arg.initialIn := by
  rw [buildSwapActions, List.head?_cons, List.getLast?_eq_some_getLast (List.cons_ne_nil pair path)]

theorem buildSwapActionsFrom_cons {pair : TokenPair}
    (h : buildSwapActionsFrom firstId lastId minOut (pair :: path) amount = .ok (actions, out)) :
    ∃ action rest next, actions = action :: rest ∧
      pair.tokenInId = .ok action.tokenIn ∧ pair.tokenOutId = .ok action.tokenOut ∧
      action.amountIn = (if pair.pool.id = firstId then some amount.toNat else none) ∧
      action.minAmountOut = (if pair.pool.id = lastId then minOut else 0) ∧
      buildSwapActionsFrom firstId lastId minOut path next = .ok (rest, out) ∧
      action.poolId = pair.pool.id ∧ pair.estimateReturn amount = .ok next := by
  rw [buildSwapActionsFrom] at h
  split at h
  · cases h
  · next next hnext =>
    simp only [Outcome.bind_eq_ok, Outcome.mapErr_eq_ok] at h
    obtain ⟨tokenIn, hin, tokenOut, hout, ⟨rest, out'⟩, hrest, hdone⟩ := h
    obtain ⟨rfl, rfl⟩ := Prod.mk.inj (Outcome.ok.inj hdone)
    exact ⟨_, rest, next, rfl, hin, hout, rfl, rfl, hrest, rfl, hnext⟩

theorem buildSwapActionsFrom_follows {a : TokenAccount} {tokens : List TokenAccount}
    (h : buildSwapActionsFrom firstId lastId minOut path amount = .ok (actions, out))
    (halong : TokenPath.Along a tokens path) : Follows a tokens actions := by
  induction path generalizing amount actions a tokens with
  | nil =>
    cases tokens with
    | nil =>
      cases h
      trivial
    | cons b tokens => exact halong.elim
  | cons pair path ih =>
    cases tokens with
    | nil => exact halong.elim
    | cons b tokens =>
      obtain ⟨hin, hout, hrest⟩ := halong
      obtain ⟨action, rest, next, rfl, hin', hout', -, -, hfrom, -⟩ := buildSwapActionsFrom_cons h
      refine ⟨?_, ?_, ih hfrom hrest⟩
      · exact Outcome.ok.inj (hin'.symm.trans hin)
      · exact Outcome.ok.inj (hout'.symm.trans hout)

theorem length_of_buildSwapActionsFrom
    (h : buildSwapActionsFrom firstId lastId minOut path amount = .ok (actions, out)) :
    actions.length = path.length := by
  induction path generalizing amount actions with
  | nil =>
    cases h
    rfl
  | cons pair path ih =>
    obtain ⟨action, rest, next, rfl, -, -, -, -, hfrom, -⟩ := buildSwapActionsFrom_cons h
    exact congrArg (· + 1) (ih hfrom)

theorem buildSwapActionsFrom_getLast {last : TokenPair}
    (h : buildSwapActionsFrom firstId lastId minOut path amount = .ok (actions, out))
    (hlast : path.getLast? = some last) :
    ∃ action, actions.getLast? = some action ∧ last.tokenOutId = .ok action.tokenOut ∧
      action.minAmountOut = if last.pool.id = lastId then minOut else 0 := by
  induction path generalizing amount actions with
  | nil => cases hlast
  | cons pair path ih =>
    obtain ⟨action, rest, next, rfl, -, hout, -, hmin, hfrom, -⟩ := buildSwapActionsFrom_cons h
    cases path with
    | nil =>
      cases hlast
      cases hfrom
      exact ⟨action, rfl, hout, hmin⟩
    | cons second path =>
      obtain ⟨final, hfinal, hrest⟩ := ih hfrom hlast
      refine ⟨final, ?_, hrest⟩
      rw [List.getLast?_cons, hfinal]
      rfl

theorem buildSwapActionsFrom_ok (firstId lastId minOut : ℕ) (hvalid : ∀ pair ∈ path, pair.Valid)
    (hvalue : path.calcValue amount = .ok out) (hout : out ≠ 0) :
    ∃ actions, buildSwapActionsFrom firstId lastId minOut path amount = .ok (actions, out) := by
  induction path generalizing amount with
  | nil =>
    cases hvalue
    exact ⟨[], rfl⟩
  | cons pair path ih =>
    rw [TokenPath.calcValue] at hvalue
    split_ifs at hvalue with hzero
    · exact absurd (Except.ok.inj hvalue).symm hout
    · obtain ⟨next, hnext, hvalue⟩ := except_bind_eq_ok.1 hvalue
      obtain ⟨⟨⟨a, ha⟩, b, hb⟩, hrest⟩ := List.forall_mem_cons.1 hvalid
      obtain ⟨actions, hactions⟩ := ih hrest hvalue
      simp only [buildSwapActionsFrom, hnext, ha, hb, hactions]
      exact ⟨_, rfl⟩

end Actions

structure SwapParams where
  fromToken : TokenAccount
  toToken : TokenAccount
  swapAmount : Option ℕ
  recorder : TradeRecorder
  policy : SlippagePolicy

/-- Only for wrapped NEAR the balance is refilled or harvested first. -/
def balanceToSwap (setting : Setting) (client : Client) (wallet : Wallet) (params : SwapParams)
    (cfg : ConfigAccess) : TradeProgram ℕ :=
  if params.fromToken = setting.wnear then
    Balances.start setting.isMainnet client wallet params.fromToken params.swapAmount cfg
  else do
    let deposits ← getDeposits client wallet.accountId
    pure (depositOf deposits params.fromToken).toNat

def swapAlong (client : Client) (wallet : Wallet) (params : SwapParams) (swapAmount : ℕ)
    (path : TokenPath) : TradeProgram Unit := do
  let amount := BitVec.ofNat 128 swapAmount
  let estimatedOutput ← .ofExcept ((path.calcValue amount).mapError Dex.Error.message)
  let minOut ← .ofExcept (calculateMinOut estimatedOutput.toNat params.policy)
  let (actions, out) ← .ofOutcome (buildSwapActions path ⟨amount, minOut⟩)
  let (txId, output) ← execute client ⟨wallet.signer, .swap actions, 1⟩ "Swap transaction failed: "
  let fromDecimals ← getTokenDecimalsCached client params.fromToken
  let toDecimals ← getTokenDecimalsCached client params.toToken
  let actualToAmount := output.toOption.map fun actual ↦ (⟨actual, toDecimals⟩ : TokenAmount)
  params.recorder.recordTrade txId params.fromToken ⟨swapAmount, fromDecimals⟩ params.toToken
    ⟨out.toNat, toDecimals⟩ actualToAmount

def executeDirectSwap (setting : Setting) (client : Client) (wallet : Wallet)
    (params : SwapParams) (cfg : ConfigAccess) : TradeProgram Unit := do
  let balance ← balanceToSwap setting client wallet params cfg
  if balance = 0 then .fail s!"No balance for token: {params.fromToken}"
  else
    let swapAmount := min (params.swapAmount.getD balance) balance
    let pools ← readPools
    let path ← .ofOutcome (findPath setting pools params.fromToken params.toToken)
    let tokens ← .ofOutcome ((TokenPath.allTokens path).mapErr Dex.Error.message)
    ensureRefStorageSetup client wallet tokens (keepWnearOnly setting.isMainnet)
      (maxTopUpFromConfig cfg)
    swapAlong client wallet params swapAmount path

def getCurrentPortfolioBalances (client : Client) (wallet : Wallet) (tokens : List TokenAccount) :
    TradeProgram (SortedMap TokenAccount TokenAmount) := do
  let deposits ← getDeposits client wallet.accountId
  tokens.foldlM (fun balances token ↦ do
    let decimals ← getTokenDecimalsCached client token
    pure (balances.insert token ⟨(depositOf deposits token).toNat, decimals⟩)) .empty

/-- The value of one holding in NEAR. A token whose rate cannot be read counts for nothing. -/
def valueOf (setting : Setting) (holding : TokenAccount × TokenAmount) :
    TradeProgram BigDecimal :=
  if holding.2.isZero then pure 0
  else if holding.1 = setting.wnear then pure (holding.2.value .wnear)
  else do
    match ← (query (.latestRate holding.1 setting.wnear)).attempt with
    | .ok (some rate) =>
      let spot := rate.toSpotRate
      pure (if spot.isEffectivelyZero then 0 else holding.2.value spot)
    | _ => pure 0

def calculateTotalPortfolioValue (setting : Setting)
    (balances : SortedMap TokenAccount TokenAmount) : TradeProgram BigDecimal :=
  balances.entries.foldlM (fun total holding ↦ do
    let value ← valueOf setting holding
    pure (total + value)) 0

section Uses

open Program Request

variable {client : Client} {wallet : Wallet} {now : Time} {setting : Setting}
  {cfg : ConfigAccess} {wnear : TokenAccount}

theorem uses_getTokenDecimalsCached {token : TokenAccount} :
    (getTokenDecimalsCached client token).Uses (Trading client wallet now wnear) := by
  refine (uses_perform ⟨trivial, trivial, trivial⟩).bind fun cached ↦ ?_
  cases cached with
  | some decimals => trivial
  | none =>
    refine (uses_perform ⟨rfl, trivial, trivial⟩).bind fun _ ↦ (uses_ofExcept _).bind fun _ ↦ ?_
    exact (uses_perform ⟨trivial, trivial, trivial⟩).bind fun _ ↦ trivial

theorem uses_newRecorder {periodId : String} :
    (TradeRecorder.new periodId).Uses (Trading client wallet now wnear) :=
  (uses_perform ⟨trivial, trivial, trivial⟩).bind fun _ ↦ trivial

theorem uses_recordTrade {recorder : TradeRecorder} {txId : String} {a b : TokenAccount}
    {x y : TokenAmount} {z : Option TokenAmount} :
    (recorder.recordTrade txId a x b y z).Uses (Trading client wallet now wnear) :=
  (uses_perform ⟨trivial, trivial, trivial⟩).bind fun _ ↦
    uses_withContext (uses_query ⟨trivial, trivial, trivial⟩)

theorem uses_readPools : readPools.Uses (Trading client wallet now wnear) :=
  (uses_perform ⟨trivial, trivial, trivial⟩).bind fun _ ↦ uses_query ⟨trivial, rfl, trivial⟩

theorem uses_balanceToSwap {params : SwapParams} :
    (balanceToSwap setting client wallet params cfg).Uses (Trading client wallet now wnear) :=
  Uses.ite uses_start (uses_getDeposits.bind fun _ ↦ trivial)

theorem uses_swapAlong {params : SwapParams} {amount : ℕ} {path : TokenPath} :
    (swapAlong client wallet params amount path).Uses (Trading client wallet now wnear) := by
  refine (uses_ofExcept _).bind fun estimated ↦ (uses_ofExcept _).bind fun minOut ↦ ?_
  refine Uses.bind trivial fun _ ↦ uses_execute.bind fun _ ↦ ?_
  exact uses_getTokenDecimalsCached.bind fun _ ↦ uses_getTokenDecimalsCached.bind fun _ ↦
    uses_recordTrade

theorem uses_executeDirectSwap {params : SwapParams} :
    (executeDirectSwap setting client wallet params cfg).Uses
      (Trading client wallet now wnear) := by
  refine uses_balanceToSwap.bind fun balance ↦ Uses.ite trivial ?_
  refine uses_readPools.bind fun pools ↦ Uses.bind trivial fun path ↦ ?_
  exact Uses.bind trivial fun tokens ↦ uses_ensureRefStorageSetup.bind fun _ ↦ uses_swapAlong

theorem uses_getCurrentPortfolioBalances {tokens : List TokenAccount} :
    (getCurrentPortfolioBalances client wallet tokens).Uses
      (Trading client wallet now wnear) := by
  refine uses_getDeposits.bind fun deposits ↦ uses_foldlM (fun balances token ↦ ?_) tokens _
  exact uses_getTokenDecimalsCached.bind fun _ ↦ trivial

theorem uses_valueOf {holding : TokenAccount × TokenAmount} :
    (valueOf setting holding).Uses (Trading client wallet now setting.wnear) := by
  refine Uses.ite trivial (Uses.ite trivial ?_)
  refine (uses_query ⟨trivial, rfl, trivial⟩).attempt.bind fun rate ↦ ?_
  rcases rate with _ | _ | rate <;> trivial

theorem uses_calculateTotalPortfolioValue {balances : SortedMap TokenAccount TokenAmount} :
    (calculateTotalPortfolioValue setting balances).Uses
      (Trading client wallet now setting.wnear) := by
  refine uses_foldlM (fun total holding ↦ ?_) _ _
  exact uses_valueOf.bind fun _ ↦ trivial

end Uses

end Zaciraci.Trade
