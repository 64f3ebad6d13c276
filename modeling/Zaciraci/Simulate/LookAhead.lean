import Zaciraci.Path.Reachability
import Zaciraci.Simulate.Client

namespace Zaciraci.Simulate

open Lib Dex Zaciraci.Path Persistence Trade

/-- Two databases with the same market data up to `t` and the same records of the simulation
itself. -/
structure AgreeUpTo (t : Time) (db₁ db₂ : Database) : Prop where
  poolInfo : db₁.poolInfo.filter (·.timestamp ≤ t) = db₂.poolInfo.filter (·.timestamp ≤ t)
  tokenRates : db₁.tokenRates.filter (·.timestamp ≤ t) = db₂.tokenRates.filter (·.timestamp ≤ t)
  predictionRecords : db₁.predictionRecords.filter (·.createdAt ≤ t) =
    db₂.predictionRecords.filter (·.createdAt ≤ t)
  evaluationPeriods : db₁.evaluationPeriods = db₂.evaluationPeriods
  tradeTransactions : db₁.tradeTransactions = db₂.tradeTransactions
  portfolioHoldings : db₁.portfolioHoldings = db₂.portfolioHoldings

def Undated : Query → Prop
  | .readFromDb none _ | .latestRate .. | .allLatestRates _ | .recentEvaluatedForTokens .. => True
  | _ => False

instance : DecidablePred Undated
  | .readFromDb none _ | .latestRate .. | .allLatestRates _ | .recentEvaluatedForTokens .. =>
    isTrue trivial
  | .readFromDb (some _) _ | .byVolatilityInTimeRange .. | .ratesInTimeRange ..
  | .latestFreshPredictions .. | .latestPeriod | .insertPeriod _ | .updateSelectedTokens ..
  | .cleanupOldRecords _ | .countByEvaluationPeriod _ | .insertTransaction _ | .latestHolding _
  | .insertHolding _ => isFalse id

structure SameMarket (db₁ db₂ : Database) : Prop where
  poolInfo : db₁.poolInfo = db₂.poolInfo
  tokenRates : db₁.tokenRates = db₂.tokenRates
  predictionRecords : db₁.predictionRecords = db₂.predictionRecords

section Queries

variable {t : Time} {wnear : TokenAccount} {db₁ db₂ : Database} {q : Query}

theorem filter_eq_of_agree {α : Type} {stamp : α → Time} {l₁ l₂ : List α}
    (h : l₁.filter (stamp · ≤ t) = l₂.filter (stamp · ≤ t)) {p : α → Bool}
    (hp : ∀ a ∈ l₁ ++ l₂, p a = true → stamp a ≤ t) : l₁.filter p = l₂.filter p := by
  have hsplit {l : List α} (hl : l ⊆ l₁ ++ l₂) :
      l.filter p = (l.filter (stamp · ≤ t)).filter p := by
    rw [List.filter_filter]
    refine List.filter_congr fun a ha ↦ ?_
    cases hpa : p a with
    | false => rfl
    | true => simp [hp a (hl ha) hpa]
  rw [hsplit (List.subset_append_left l₁ l₂), hsplit (List.subset_append_right l₁ l₂), h]

theorem AgreeUpTo.readFromDb (h : AgreeUpTo t db₁ db₂) {timestamp now : Time}
    (hle : timestamp ≤ t) :
    db₁.readFromDb (some timestamp) now = db₂.readFromDb (some timestamp) now := by
  have hfirst : db₁.getLatestPoolBefore 0 timestamp = db₂.getLatestPoolBefore 0 timestamp := by
    simp only [Database.getLatestPoolBefore]
    rw [filter_eq_of_agree h.poolInfo]
    intro row _ hrow
    exact ((decide_eq_true_eq.mp hrow).2.le).trans hle
  have hunique (start : Time) :
      db₁.getAllUniqueBetween start timestamp = db₂.getAllUniqueBetween start timestamp := by
    simp only [Database.getAllUniqueBetween]
    rw [filter_eq_of_agree h.poolInfo]
    intro row _ hrow
    exact (decide_eq_true_eq.mp hrow).2.trans hle
  simp only [Database.readFromDb, hfirst, Option.getD_some, hunique]

theorem AgreeUpTo.getSpotRatesAtTime (h : AgreeUpTo t db₁ db₂) {tokens : List TokenAccount}
    {quote : TokenAccount} {atOrBefore : Time} (hle : atOrBefore ≤ t) :
    db₁.getSpotRatesAtTime tokens quote atOrBefore =
      db₂.getSpotRatesAtTime tokens quote atOrBefore := by
  simp only [Database.getSpotRatesAtTime]
  rw [filter_eq_of_agree h.tokenRates]
  intro rate _ hrate
  exact (decide_eq_true_eq.mp hrate).2.2.trans hle

theorem AgreeUpTo.getByVolatilityInTimeRange (h : AgreeUpTo t db₁ db₂) {start stop : Time}
    {quote : TokenAccount} (hle : stop ≤ t) :
    db₁.getByVolatilityInTimeRange start stop quote =
      db₂.getByVolatilityInTimeRange start stop quote := by
  simp only [Database.getByVolatilityInTimeRange]
  rw [filter_eq_of_agree h.tokenRates]
  intro rate _ hrate
  exact (decide_eq_true_eq.mp hrate).2.2.trans hle

theorem AgreeUpTo.getRatesInTimeRange (h : AgreeUpTo t db₁ db₂) {start stop : Time}
    {base quote : TokenAccount} (hle : stop ≤ t) :
    db₁.getRatesInTimeRange start stop base quote =
      db₂.getRatesInTimeRange start stop base quote := by
  simp only [Database.getRatesInTimeRange]
  rw [filter_eq_of_agree h.tokenRates]
  intro rate _ hrate
  exact (decide_eq_true_eq.mp hrate).2.1.trans hle

theorem AgreeUpTo.getLatestFreshPredictions (h : AgreeUpTo t db₁ db₂)
    {tokens : List TokenAccount} {asOf : Time} (hle : asOf ≤ t) :
    db₁.getLatestFreshPredictions tokens asOf = db₂.getLatestFreshPredictions tokens asOf := by
  simp only [Database.getLatestFreshPredictions]
  rw [filter_eq_of_agree h.predictionRecords]
  intro record _ hrecord
  exact (decide_eq_true_eq.mp hrecord).2.1.trans hle

/-- Nothing that the undated queries read is later than `t`. -/
structure EndsAt (t : Time) (wnear : TokenAccount) (db : Database) : Prop where
  poolInfo : ∀ row ∈ db.poolInfo, row.timestamp ≤ t
  tokenRates : ∀ rate ∈ db.tokenRates, rate.quote = wnear → rate.timestamp ≤ t
  predictionRecords : ∀ record ∈ db.predictionRecords,
    record.evaluatedAt.isSome → record.createdAt ≤ t

theorem AgreeUpTo.undated_eq (h : AgreeUpTo t db₁ db₂) (h₁ : EndsAt t wnear db₁)
    (h₂ : EndsAt t wnear db₂) (hq : (Request.db q).Dated t wnear) (hundated : Undated q) :
    (db₁.answer q).1 = (db₂.answer q).1 := by
  have hpools (p : PoolRow → Bool) : db₁.poolInfo.filter p = db₂.poolInfo.filter p :=
    filter_eq_of_agree h.poolInfo fun row hrow _ ↦
      (List.mem_append.mp hrow).elim (h₁.poolInfo row) (h₂.poolInfo row)
  have hrates {p : TokenRate → Bool} (hp : ∀ rate, p rate = true → rate.quote = wnear) :
      db₁.tokenRates.filter p = db₂.tokenRates.filter p :=
    filter_eq_of_agree h.tokenRates fun rate hrate hselected ↦
      (List.mem_append.mp hrate).elim (fun hm ↦ h₁.tokenRates rate hm (hp rate hselected))
        fun hm ↦ h₂.tokenRates rate hm (hp rate hselected)
  have hpredictions {p : PredictionRecord → Bool}
      (hp : ∀ record, p record = true → record.evaluatedAt.isSome) :
      db₁.predictionRecords.filter p = db₂.predictionRecords.filter p :=
    filter_eq_of_agree h.predictionRecords fun record hrecord hselected ↦
      (List.mem_append.mp hrecord).elim
        (fun hm ↦ h₁.predictionRecords record hm (hp record hselected))
        fun hm ↦ h₂.predictionRecords record hm (hp record hselected)
  cases q with
  | readFromDb timestamp now =>
    obtain rfl : timestamp = none := hq
    simp only [Database.answer, Database.readFromDb, Database.getLatestPool,
      Database.getAllUniqueBetween, hpools]
  | latestRate base quote =>
    obtain rfl : quote = wnear := hq
    simp only [Database.answer, Database.getLatestRate]
    rw [hrates]
    exact fun rate hrate ↦ (decide_eq_true_eq.mp hrate).2
  | allLatestRates quote =>
    obtain rfl : quote = wnear := hq
    simp only [Database.answer, Database.getAllLatestRates]
    rw [hrates]
    exact fun rate hrate ↦ decide_eq_true_eq.mp hrate
  | recentEvaluatedForTokens limit tokens =>
    simp only [Database.answer, Database.getRecentEvaluatedForTokens, Database.evaluatedFor,
      Database.evaluatedRows]
    rw [hpredictions]
    exact fun record hrecord ↦ (decide_eq_true_eq.mp hrecord).1
  | _ => exact hundated.elim

theorem SameMarket.undated_eq (h : SameMarket db₁ db₂) (hq : Undated q) :
    (db₁.answer q).1 = (db₂.answer q).1 := by
  obtain ⟨hpools, hrates, hpredictions⟩ := h
  cases q with
  | readFromDb timestamp now =>
    cases timestamp with
    | none =>
      simp only [Database.answer, Database.readFromDb, Database.getLatestPool,
        Database.getAllUniqueBetween, hpools]
    | some timestamp => exact hq.elim
  | latestRate base quote => simp only [Database.answer, Database.getLatestRate, hrates]
  | allLatestRates quote => simp only [Database.answer, Database.getAllLatestRates, hrates]
  | recentEvaluatedForTokens limit tokens =>
    simp only [Database.answer, Database.getRecentEvaluatedForTokens, Database.evaluatedFor,
      Database.evaluatedRows, hpredictions]
  | _ => exact hq.elim

theorem sameMarket_answer (db : Database) (q : Query) : SameMarket db (db.answer q).2 := by
  cases q with
  | insertPeriod period =>
    simp only [Database.answer, Database.insertPeriod]
    split_ifs <;> exact ⟨rfl, rfl, rfl⟩
  | updateSelectedTokens periodId tokens =>
    simp only [Database.answer, Database.updateSelectedTokens]
    split_ifs <;> exact ⟨rfl, rfl, rfl⟩
  | insertTransaction tx =>
    simp only [Database.answer, Database.insertTransaction]
    split_ifs <;> exact ⟨rfl, rfl, rfl⟩
  | insertHolding record =>
    simp only [Database.answer, Database.insertHolding]
    split_ifs <;> exact ⟨rfl, rfl, rfl⟩
  | _ => exact ⟨rfl, rfl, rfl⟩

theorem AgreeUpTo.answer (h : AgreeUpTo t db₁ db₂) (hq : (Request.db q).Dated t wnear) :
    (¬ Undated q → (db₁.answer q).1 = (db₂.answer q).1) ∧
      AgreeUpTo t (db₁.answer q).2 (db₂.answer q).2 := by
  cases q with
  | readFromDb timestamp now =>
    obtain rfl : timestamp = none := hq
    exact ⟨fun hundated ↦ absurd trivial hundated, h⟩
  | latestRate base quote => exact ⟨fun hundated ↦ absurd trivial hundated, h⟩
  | allLatestRates quote => exact ⟨fun hundated ↦ absurd trivial hundated, h⟩
  | recentEvaluatedForTokens limit tokens => exact ⟨fun hundated ↦ absurd trivial hundated, h⟩
  | byVolatilityInTimeRange start stop quote =>
    exact ⟨fun _ ↦ congrArg Except.ok (h.getByVolatilityInTimeRange hq), h⟩
  | ratesInTimeRange start stop base quote =>
    exact ⟨fun _ ↦ congrArg Except.ok (h.getRatesInTimeRange hq), h⟩
  | latestFreshPredictions tokens asOf =>
    exact ⟨fun _ ↦ congrArg Except.ok (h.getLatestFreshPredictions hq), h⟩
  | latestPeriod =>
    refine ⟨fun _ ↦ congrArg Except.ok ?_, h⟩
    rw [Database.getLatestPeriod, Database.getLatestPeriod, h.evaluationPeriods]
  | insertPeriod period =>
    simp only [Database.answer, Database.insertPeriod, h.evaluationPeriods]
    split_ifs
    · exact ⟨fun _ ↦ rfl, h⟩
    · exact ⟨fun _ ↦ rfl, { h with evaluationPeriods := rfl }⟩
  | updateSelectedTokens periodId tokens =>
    simp only [Database.answer, Database.updateSelectedTokens, h.evaluationPeriods]
    split_ifs
    · exact ⟨fun _ ↦ rfl, { h with evaluationPeriods := rfl }⟩
    · exact ⟨fun _ ↦ rfl, { h with evaluationPeriods := rfl }⟩
    · exact ⟨fun _ ↦ rfl, h⟩
  | cleanupOldRecords cutoff =>
    refine ⟨fun _ ↦ rfl, { h with evaluationPeriods := ?_, tradeTransactions := ?_
                                  portfolioHoldings := ?_ }⟩
    all_goals simp only [Database.answer, Database.cleanupOldRecords, h.evaluationPeriods,
      h.tradeTransactions, h.portfolioHoldings]
  | countByEvaluationPeriod periodId =>
    refine ⟨fun _ ↦ congrArg Except.ok ?_, h⟩
    rw [Database.countByEvaluationPeriod, Database.countByEvaluationPeriod, h.tradeTransactions]
  | insertTransaction tx =>
    simp only [Database.answer, Database.insertTransaction, h.evaluationPeriods,
      h.tradeTransactions]
    split_ifs
    · exact ⟨fun _ ↦ rfl, h⟩
    · exact ⟨fun _ ↦ rfl, { h with evaluationPeriods := rfl, tradeTransactions := rfl }⟩
  | latestHolding periodId =>
    refine ⟨fun _ ↦ congrArg Except.ok ?_, h⟩
    rw [Database.getLatestHolding, Database.getLatestHolding, h.portfolioHoldings]
  | insertHolding record =>
    simp only [Database.answer, Database.insertHolding, h.evaluationPeriods,
      h.portfolioHoldings]
    split_ifs
    · exact ⟨fun _ ↦ rfl, { h with evaluationPeriods := rfl, portfolioHoldings := rfl }⟩
    · exact ⟨fun _ ↦ rfl, h⟩

end Queries

section Cycle

variable {γ : Type} {sim : SimulationClient} {outside : Outside γ} {w : World γ} {db : Database}

theorem calculateSwapOutput_eq (h : AgreeUpTo sim.simDay w.db db) {actions : List SwapAction}
    {tokenIn tokenOut : TokenAccount} {amountIn : ℕ} :
    calculateSwapOutput sim { w with db } actions tokenIn amountIn tokenOut =
      calculateSwapOutput sim w actions tokenIn amountIn tokenOut := by
  have hrate (token : TokenAccount) :
      getRateAtDate sim w.db token = getRateAtDate sim db token := by
    rw [getRateAtDate, getRateAtDate, h.getSpotRatesAtTime le_rfl]
  simp only [calculateSwapOutput, calculateSwapOutputViaRates, h.readFromDb le_rfl, hrate]
  rfl

theorem handleSwap_eq (h : AgreeUpTo sim.simDay w.db db) (actions : List SwapAction) :
    handleSwap sim { w with db } actions =
      ((handleSwap sim w actions).1, { (handleSwap sim w actions).2 with db }) := by
  have hdecimals (token : TokenAccount) :
      decimalsFor { w with db } token = decimalsFor w token := rfl
  simp only [handleSwap, calculateSwapOutput_eq h, hdecimals]
  split
  · split_ifs
    · rfl
    · rfl
    · split <;> rfl
  · rfl

theorem execContract_eq (h : AgreeUpTo sim.simDay w.db db) (call : Call) :
    execContract sim { w with db } call =
      ((execContract sim w call).1, { (execContract sim w call).2 with db }) := by
  cases call with
  | swap actions =>
    simp only [execContract, handleSwap_eq h]
  | storage method => cases method <;> rfl
  | _ => rfl

theorem clientAnswer_eq (h : AgreeUpTo sim.simDay w.db db) (q : ChainRequest) :
    clientAnswer sim { w with db } q =
      ((clientAnswer sim w q).1, { (clientAnswer sim w q).2 with db }) := by
  cases q with
  | exec tx => exact execContract_eq h tx.call
  | _ => rfl

/-- What two simulations have in common that differ in later market data: `db₁` and `db₂` hold all
of it. -/
structure SameWorld (t : Time) (db₁ db₂ : Database) (w₁ w₂ : World γ) : Prop where
  eq : w₂ = { w₁ with db := w₂.db }
  agree : AgreeUpTo t w₁.db w₂.db
  left : SameMarket db₁ w₁.db
  right : SameMarket db₂ w₂.db

theorem SameMarket.trans {db₁ db₂ db₃ : Database} (h : SameMarket db₁ db₂)
    (h' : SameMarket db₂ db₃) : SameMarket db₁ db₃ :=
  ⟨h.poolInfo.trans h'.poolInfo, h.tokenRates.trans h'.tokenRates,
    h.predictionRecords.trans h'.predictionRecords⟩

/-- A request is answered alike by the two databases, if it is an undated query. -/
def AlikeUndated (db₁ db₂ : Database) : Request → Prop
  | .db q => Undated q → (db₁.answer q).1 = (db₂.answer q).1
  | _ => True

theorem SameWorld.answer {db₁ db₂ : Database} {w₁ w₂ : World γ}
    (h : SameWorld sim.simDay db₁ db₂ w₁ w₂) {q : Request} (hq : q.Dated sim.simDay sim.wnear) :
    ((answer sim outside q w₁).1 = (answer sim outside q w₂).1 ↔ AlikeUndated db₁ db₂ q) ∧
      SameWorld sim.simDay db₁ db₂ (answer sim outside q w₁).2 (answer sim outside q w₂).2 := by
  obtain ⟨heq, hagree, hleft, hright⟩ := h
  generalize w₂.db = db at heq hagree hright
  subst heq
  cases q with
  | chain client q =>
    cases client with
    | given =>
      have hclient := clientAnswer_eq hagree q
      have hdb := clientAnswer_db sim w₁ q
      simp only [Simulate.answer, hclient]
      exact ⟨iff_of_true trivial trivial, rfl, hdb ▸ hagree, hdb ▸ hleft, hright⟩
    | standard => exact ⟨iff_of_true rfl trivial, rfl, hagree, hleft, hright⟩
  | db q =>
    obtain ⟨hdated, hnext⟩ := hagree.answer hq
    refine ⟨?_, rfl, hnext, hleft.trans (sameMarket_answer _ q),
      hright.trans (sameMarket_answer _ q)⟩
    by_cases hundated : Undated q
    · change (w₁.db.answer q).1 = (db.answer q).1 ↔ (Undated q → _)
      rw [← hleft.undated_eq hundated, ← hright.undated_eq hundated]
      exact ⟨fun h _ ↦ h, fun h ↦ h hundated⟩
    · exact iff_of_true (hdated hundated) fun h ↦ absurd h hundated
  | _ => exact ⟨iff_of_true rfl trivial, rfl, hagree, hleft, hright⟩

end Cycle

def marketToken : TokenAccount := ⟨"a.near"⟩

def marketPools (x y : BitVec 128) (timestamp : Time) : List PoolRow :=
  [⟨TokenGraph.twoTokenPool 0 (wnearToken true) marketToken x 100000, timestamp⟩,
    ⟨TokenGraph.twoTokenPool 1 (wnearToken true) marketToken y 100000, timestamp⟩]

/-- A portfolio with one token, on the last day of a period. On the day before, pool 0 paid
twice as much for the token as pool 1. -/
def marketWorld : World Unit where
  db := ⟨marketPools 200000 100000 (9 * day), [], [], [⟨"eval_1", 0, 0, none, 0⟩], [], []⟩
  portfolio := { PortfolioState.new 0 with
    holdings := SortedMap.empty.insert marketToken ⟨1000, 24⟩ }
  registered := (SortedMap.empty.insert (wnearToken true) ()).insert marketToken ()
  decimals := .empty
  lastHarvest := fun _ ↦ 0
  readings := 0
  chain := ()

def twoDaysLater : Outside Unit where
  startup := none
  predictionService := .ok ()
  utcNow := fun _ ↦ 12 * day
  unixSeconds := fun _ ↦ 1700000000
  newUuid := toString
  chain
    | .exec _, s => (.refused "", s)
    | .transferNativeToken .., s => (.refused "", s)
    | .nativeAmount _, s => (.error "", s)
    | .storageBalanceOf _, s => (.error "", s)
    | .storageBalanceBounds, s => (.error "", s)
    | .getDeposits _, s => (.error "", s)
    | .wnearBalanceOf _, s => (.error "", s)
    | .ftMetadata _, s => (.error "", s)
    | .ftBalanceOf _, s => (.error "", s)
    | .ftTotalSupply _, s => (.error "", s)

end Zaciraci.Simulate
