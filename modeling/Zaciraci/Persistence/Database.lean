import Mathlib.Data.List.MinMax
import Zaciraci.Dex.PoolInfo
import Zaciraci.Units

namespace Zaciraci.Persistence

open Lib

structure PoolRow where
  pool : Dex.PoolInfo
  timestamp : Time

structure SwapPoolInfo where
  amountIn : BigDecimal
  amountOut : BigDecimal

structure TokenRate where
  base : TokenAccount
  quote : TokenAccount
  exchangeRate : ExchangeRate
  timestamp : Time
  rateCalcNear : ℤ
  swapPath : Option (List SwapPoolInfo)

structure PredictionRecord where
  id : ℤ
  token : String
  predictedPrice : BigDecimal
  dataCutoffTime : Time
  targetTime : Time
  actualPrice : Option BigDecimal
  mape : Option Float
  evaluatedAt : Option Time
  createdAt : Time

structure EvaluationPeriod where
  periodId : String
  startTime : Time
  initialValue : BigDecimal
  selectedTokens : Option (List (Option String))
  createdAt : Time
deriving DecidableEq

structure TradeTransaction where
  txId : String
  tradeBatchId : String
  fromToken : TokenAccount
  fromAmount : BigDecimal
  toToken : TokenAccount
  toAmount : BigDecimal
  timestamp : Time
  evaluationPeriodId : String
  actualToAmount : Option BigDecimal
deriving DecidableEq

structure TokenHolding where
  token : TokenAccount
  balance : BigDecimal
  decimals : ℕ
deriving DecidableEq

structure PortfolioHolding where
  evaluationPeriodId : String
  timestamp : Time
  tokenHoldings : List TokenHolding
deriving DecidableEq

structure Database where
  poolInfo : List PoolRow
  tokenRates : List TokenRate
  predictionRecords : List PredictionRecord
  evaluationPeriods : List EvaluationPeriod
  tradeTransactions : List TradeTransaction
  portfolioHoldings : List PortfolioHolding

/-- `SELECT DISTINCT ON (key) .. ORDER BY key, stamp DESC`. -/
def latestPer {K α : Type} [LinearOrder K] (key : α → K) (stamp : α → Time) (rows : List α) :
    SortedMap K α :=
  rows.foldl (fun latest row ↦
    match latest.get (key row) with
    | some best => if stamp best < stamp row then latest.insert (key row) row else latest
    | none => latest.insert (key row) row) .empty

theorem latestPer_key {K α : Type} [LinearOrder K] {key : α → K} {stamp : α → Time}
    {rows : List α} {k : K} {row : α} (h : (latestPer key stamp rows).get k = some row) :
    key row = k := by
  revert k row
  rw [latestPer]
  refine List.foldlRecOn rows _ (motive := fun m : SortedMap K α ↦
    ∀ {k row}, m.get k = some row → key row = k) (fun hget ↦ by cases hget) ?_
  intro m hm new _ k row hget
  have hinsert : (m.insert (key new) new).get k = some row → key row = k := by
    rw [SortedMap.get_insert]
    split_ifs with hk
    · rintro ⟨⟩
      exact hk.symm
    · exact hm
  split at hget
  · split_ifs at hget
    · exact hinsert hget
    · exact hm hget
  · exact hinsert hget

namespace TokenRate

/-- The factor by which the pools of a path moved the rate that was recorded. The amounts are not
negative, and neither is `delta` for a rate that was recorded for an amount of NEAR, so that nothing
is divided by zero. For a negative one the source panics where the sum is zero. -/
def correction : BigDecimal → List SwapPoolInfo → BigDecimal
  | _, [] => 1
  | delta, pool :: pools =>
    if pool.amountIn = 0 then correction delta pools
    else BigDecimal.div (pool.amountIn + delta) pool.amountIn *
      correction (BigDecimal.div (pool.amountOut * delta) (pool.amountIn + delta)) pools

def toSpotRateWithFallback (rate : TokenRate) (fallback : Option (List SwapPoolInfo)) :
    ExchangeRate :=
  match rate.swapPath.or fallback with
  | some (pool :: pools) =>
    rate.exchangeRate.scale (correction (rate.rateCalcNear * yoctoPerNear) (pool :: pools))
  | _ => rate.exchangeRate

def toSpotRate (rate : TokenRate) : ExchangeRate := rate.toSpotRateWithFallback none

/-- Rates in the order of time. One without a path takes that of the next one that has it. -/
def toSpotRates : List TokenRate → List (Time × ExchangeRate)
  | [] => []
  | rate :: rates =>
    let fallback := rates.findSome? (·.swapPath)
    let spot := rate.toSpotRateWithFallback fallback
    if spot.isEffectivelyZero then toSpotRates rates
    else (rate.timestamp, spot) :: toSpotRates rates

/-- The newest rate of each token, with the newest path where it has none itself. -/
def latestSpotRates (rates : List TokenRate) : SortedMap TokenAccount ExchangeRate :=
  let paths := latestPer TokenRate.base TokenRate.timestamp (rates.filter (·.swapPath.isSome))
  (latestPer TokenRate.base TokenRate.timestamp rates).entries.foldl (fun spots entry ↦
    let path := (paths.get entry.1).bind TokenRate.swapPath
    spots.insert entry.1 (entry.2.toSpotRateWithFallback path)) .empty

def mean (rates : List BigDecimal) : BigDecimal := rates.sum / rates.length

/-- The square of `stddev_pop(rate) / avg(rate)`, which puts the tokens in the same order. -/
def variation (rates : List BigDecimal) : BigDecimal :=
  mean (rates.map fun r ↦ (r - mean rates) ^ 2) / mean rates ^ 2

end TokenRate

namespace Database

def getLatestPool (db : Database) (poolId : ℕ) : Option PoolRow :=
  (db.poolInfo.filter (·.pool.id = poolId)).argmax (·.timestamp)

def getLatestPoolBefore (db : Database) (poolId : ℕ) (timestamp : Time) : Option PoolRow :=
  (db.poolInfo.filter fun row ↦ row.pool.id = poolId ∧ row.timestamp < timestamp).argmax
    (·.timestamp)

def getAllUniqueBetween (db : Database) (start stop : Time) : List Dex.PoolInfo :=
  (latestPer (·.pool.id) PoolRow.timestamp
    (db.poolInfo.filter fun row ↦ start ≤ row.timestamp ∧ row.timestamp ≤ stop)).entries.map
      (·.2.pool)

/-- The pools as they were at `timestamp`, or in their newest state without one: those recorded
since the last time pool 0 was. -/
def readFromDb (db : Database) (timestamp : Option Time) (now : Time) :
    Except String Dex.PoolInfoList :=
  let first := match timestamp with
    | some timestamp => db.getLatestPoolBefore 0 timestamp
    | none => db.getLatestPool 0
  match first with
  | none => .error "no pool found"
  | some first => .ok (.new (db.getAllUniqueBetween first.timestamp (timestamp.getD now)))

theorem consistent_unique (db : Database) (start stop : Time) :
    (Dex.PoolInfoList.new (db.getAllUniqueBetween start stop)).Consistent := by
  apply Dex.PoolInfoList.consistent_new
  rw [getAllUniqueBetween, List.map_map]
  set latest := latestPer (·.pool.id) PoolRow.timestamp _
  have hids : latest.entries.map ((·.id) ∘ fun entry ↦ entry.2.pool) = latest.keys := by
    apply List.map_congr_left
    intro entry hentry
    have hget : latest.get entry.1 = some entry.2 := SortedMap.get_eq_some.2 hentry
    have hkey := latestPer_key hget
    exact hkey
  rw [hids]
  exact latest.keys_nodup

theorem readFromDb_consistent {db : Database} {timestamp : Option Time} {now : Time}
    {pools : Dex.PoolInfoList} (h : db.readFromDb timestamp now = .ok pools) :
    pools.Consistent := by
  unfold readFromDb at h
  dsimp only at h
  generalize hfirst : (match timestamp with
    | some timestamp => db.getLatestPoolBefore 0 timestamp
    | none => db.getLatestPool 0) = first at h
  cases first with
  | none => cases h
  | some first =>
    cases h
    exact consistent_unique db _ _

def getLatestRate (db : Database) (base quote : TokenAccount) : Option TokenRate :=
  (db.tokenRates.filter fun rate ↦ rate.base = base ∧ rate.quote = quote).argmax (·.timestamp)

def getAllLatestRates (db : Database) (quote : TokenAccount) :
    SortedMap TokenAccount ExchangeRate :=
  TokenRate.latestSpotRates (db.tokenRates.filter (·.quote = quote))

def getSpotRatesAtTime (db : Database) (tokens : List TokenAccount) (quote : TokenAccount)
    (atOrBefore : Time) : SortedMap TokenAccount ExchangeRate :=
  TokenRate.latestSpotRates (db.tokenRates.filter fun rate ↦
    rate.base ∈ tokens ∧ rate.quote = quote ∧ rate.timestamp ≤ atOrBefore)

def getRatesInTimeRange (db : Database) (start stop : Time) (base quote : TokenAccount) :
    List TokenRate :=
  (db.tokenRates.filter fun rate ↦ start < rate.timestamp ∧ rate.timestamp ≤ stop ∧
    rate.base = base ∧ rate.quote = quote).insertionSort fun a b ↦ a.timestamp ≤ b.timestamp

/-- The tokens with at least three rates, all of them positive, the most volatile first. -/
def getByVolatilityInTimeRange (db : Database) (start stop : Time) (quote : TokenAccount) :
    List TokenAccount :=
  let rows := db.tokenRates.filter fun rate ↦
    rate.quote = quote ∧ start ≤ rate.timestamp ∧ rate.timestamp ≤ stop
  let ratesOf (token : TokenAccount) : List BigDecimal :=
    (rows.filter (·.base = token)).map (·.exchangeRate.rawRate)
  let eligible := (rows.map (·.base)).dedup.filter fun token ↦
    (ratesOf token).all (0 < ·) && 3 ≤ (ratesOf token).length
  eligible.insertionSort fun a b ↦
    TokenRate.variation (ratesOf b) ≤ TokenRate.variation (ratesOf a)

/-- Of the predictions for the future that existed at `asOf`, the one furthest ahead. -/
def getLatestFreshPredictions (db : Database) (tokens : List TokenAccount) (asOf : Time) :
    List PredictionRecord :=
  let rows := db.predictionRecords.filter fun r ↦
    r.token ∈ tokens.map toString ∧ r.createdAt ≤ asOf ∧ asOf < r.targetTime
  let newestFirst := rows.insertionSort fun a b ↦
    b.targetTime < a.targetTime ∨ b.targetTime = a.targetTime ∧
      (b.dataCutoffTime < a.dataCutoffTime ∨ b.dataCutoffTime = a.dataCutoffTime ∧ b.id ≤ a.id)
  ((newestFirst.map (·.token)).dedup.insertionSort (· ≤ ·)).filterMap fun token ↦
    newestFirst.find? (·.token = token)

def evaluatedRows (db : Database) (tokens : List TokenAccount) : List PredictionRecord :=
  db.predictionRecords.filter fun r ↦ r.evaluatedAt.isSome ∧ r.token ∈ tokens.map toString

/-- The evaluated predictions for these tokens, in the order of their targets, newest first. Where
targets are equal, their order is that of the table. -/
def evaluatedFor (db : Database) (tokens : List TokenAccount) : List PredictionRecord :=
  (db.evaluatedRows tokens).insertionSort fun a b ↦ b.targetTime ≤ a.targetTime

def getRecentEvaluatedForTokens (db : Database) (limit : ℤ) (tokens : List TokenAccount) :
    List PredictionRecord :=
  (db.evaluatedFor tokens).take limit.toNat

def getLatestPeriod (db : Database) : Option EvaluationPeriod :=
  db.evaluationPeriods.argmax (·.startTime)

def insertPeriod (db : Database) (period : EvaluationPeriod) :
    Except String EvaluationPeriod × Database :=
  if period.periodId ∈ db.evaluationPeriods.map (·.periodId) then
    (.error "Failed to insert evaluation period", db)
  else (.ok period, { db with evaluationPeriods := db.evaluationPeriods ++ [period] })

def updateSelectedTokens (db : Database) (periodId : String) (tokens : List String) :
    Except String Unit × Database :=
  if periodId ∈ db.evaluationPeriods.map (·.periodId) then
    let selected := if tokens = [] then none else some (tokens.map some)
    (.ok (), { db with evaluationPeriods := db.evaluationPeriods.map fun period ↦
      if period.periodId = periodId then { period with selectedTokens := selected } else period })
  else (.error "Failed to update selected tokens", db)

/-- Old periods go, and with them the transactions and holdings that refer to them. -/
def cleanupOldRecords (db : Database) (cutoff : Time) : Database :=
  let kept := db.evaluationPeriods.filter (cutoff ≤ ·.createdAt)
  { db with
    evaluationPeriods := kept
    tradeTransactions := db.tradeTransactions.filter
      (·.evaluationPeriodId ∈ kept.map (·.periodId))
    portfolioHoldings := db.portfolioHoldings.filter
      (·.evaluationPeriodId ∈ kept.map (·.periodId)) }

/-- The transaction id is the primary key, and the period must exist. -/
def insertTransaction (db : Database) (tx : TradeTransaction) : Except String Unit × Database :=
  if tx.txId ∈ db.tradeTransactions.map (·.txId) ∨
      tx.evaluationPeriodId ∉ db.evaluationPeriods.map (·.periodId) then
    (.error "Failed to insert trade transaction", db)
  else (.ok (), { db with tradeTransactions := db.tradeTransactions ++ [tx] })

def countByEvaluationPeriod (db : Database) (periodId : String) : ℕ :=
  db.tradeTransactions.countP (·.evaluationPeriodId = periodId)

def getLatestHolding (db : Database) (periodId : String) : Option PortfolioHolding :=
  (db.portfolioHoldings.filter (·.evaluationPeriodId = periodId)).argmax (·.timestamp)

def insertHolding (db : Database) (record : PortfolioHolding) : Except String Unit × Database :=
  if record.evaluationPeriodId ∈ db.evaluationPeriods.map (·.periodId) then
    (.ok (), { db with portfolioHoldings := db.portfolioHoldings ++ [record] })
  else (.error "insert or update on table violates foreign key constraint", db)

end Database

inductive Query
  | readFromDb (timestamp : Option Time) (now : Time)
  | latestRate (base quote : TokenAccount)
  | allLatestRates (quote : TokenAccount)
  | byVolatilityInTimeRange (start stop : Time) (quote : TokenAccount)
  | ratesInTimeRange (start stop : Time) (base quote : TokenAccount)
  | latestFreshPredictions (tokens : List TokenAccount) (asOf : Time)
  | recentEvaluatedForTokens (limit : ℤ) (tokens : List TokenAccount)
  | latestPeriod
  | insertPeriod (period : EvaluationPeriod)
  | updateSelectedTokens (periodId : String) (tokens : List String)
  | cleanupOldRecords (cutoff : Time)
  | countByEvaluationPeriod (periodId : String)
  | insertTransaction (tx : TradeTransaction)
  | latestHolding (periodId : String)
  | insertHolding (record : PortfolioHolding)

@[reducible] def Reply : Query → Type
  | .readFromDb .. => Dex.PoolInfoList
  | .latestRate .. => Option TokenRate
  | .allLatestRates _ => SortedMap TokenAccount ExchangeRate
  | .byVolatilityInTimeRange .. => List TokenAccount
  | .ratesInTimeRange .. => List TokenRate
  | .latestFreshPredictions .. => List PredictionRecord
  | .recentEvaluatedForTokens .. => List PredictionRecord
  | .latestPeriod => Option EvaluationPeriod
  | .insertPeriod _ => EvaluationPeriod
  | .updateSelectedTokens .. => Unit
  | .cleanupOldRecords _ => Unit
  | .countByEvaluationPeriod _ => ℕ
  | .insertTransaction _ => Unit
  | .latestHolding _ => Option PortfolioHolding
  | .insertHolding _ => Unit

def Database.answer (db : Database) : (q : Query) → Except String (Reply q) × Database
  | .readFromDb timestamp now => (db.readFromDb timestamp now, db)
  | .latestRate base quote => (.ok (db.getLatestRate base quote), db)
  | .allLatestRates quote => (.ok (db.getAllLatestRates quote), db)
  | .byVolatilityInTimeRange start stop quote =>
    (.ok (db.getByVolatilityInTimeRange start stop quote), db)
  | .ratesInTimeRange start stop base quote =>
    (.ok (db.getRatesInTimeRange start stop base quote), db)
  | .latestFreshPredictions tokens asOf => (.ok (db.getLatestFreshPredictions tokens asOf), db)
  | .recentEvaluatedForTokens limit tokens =>
    (.ok (db.getRecentEvaluatedForTokens limit tokens), db)
  | .latestPeriod => (.ok db.getLatestPeriod, db)
  | .insertPeriod period => db.insertPeriod period
  | .updateSelectedTokens periodId tokens => db.updateSelectedTokens periodId tokens
  | .cleanupOldRecords cutoff => (.ok (), db.cleanupOldRecords cutoff)
  | .countByEvaluationPeriod periodId => (.ok (db.countByEvaluationPeriod periodId), db)
  | .insertTransaction tx => db.insertTransaction tx
  | .latestHolding periodId => (.ok (db.getLatestHolding periodId), db)
  | .insertHolding record => db.insertHolding record

end Zaciraci.Persistence
