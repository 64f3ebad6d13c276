import Zaciraci.Trade.Evaluation

namespace Zaciraci.Trade

open Lib Persistence

structure PriceHistory where
  token : TokenAccount
  quoteToken : TokenAccount
  prices : List PricePoint

structure PredictedPrice where
  timestamp : Time
  price : BigDecimal
  confidence : Option BigDecimal

structure TokenPredictionResult where
  token : TokenAccount
  quoteToken : TokenAccount
  dataCutoffTime : Time
  predictions : List PredictedPrice

structure ChronosPredictionResponse where
  forecast : SortedMap Time BigDecimal
  lowerBound : Option (SortedMap Time BigDecimal)
  upperBound : Option (SortedMap Time BigDecimal)

/-- The service with what a cycle gives it. The forecasting library may answer each attempt for a
token in its own way. -/
structure PredictionService where
  predictor : TokenAccount → ℕ → SortedMap Time BigDecimal → Time →
    Except String ChronosPredictionResponse
  maxRetries : UInt32
  toF64 : BigDecimal → Option Float
  ofF64 : Float → BigDecimal
  quoteToken : TokenAccount
  historyDays : UInt32
  asOf : Time

/-- How the work is cut and interleaved: the chunks whose histories can be read, and the order in
which the forecasts of a chunk are done. -/
structure ChunkSchedule where
  chunkSize : UInt32
  concurrency : UInt32
  answered : ℕ → Bool
  arrival : List (TokenAccount × Option TokenPredictionResult) →
    List (TokenAccount × Option TokenPredictionResult)
  arrival_perm : ∀ l, (arrival l).Perm l

section Model

/-- The forecast closest to the horizon, if there is one within an hour of it. -/
def TokenPredictionResult.predictionAtHorizon (result : TokenPredictionResult)
    (horizonHours : ℕ) : Option PredictedPrice :=
  if horizonHours = 0 then none
  else
    let target := result.dataCutoffTime + horizonHours * hour
    (result.predictions.filter fun p ↦ |p.timestamp - target| ≤ hour).argmin
      fun p ↦ |p.timestamp - target|

def priceHistoryOf (token quoteToken : TokenAccount) (rates : List TokenRate) : PriceHistory :=
  ⟨token, quoteToken, (TokenRate.toSpotRates rates).map fun spot ↦ ⟨spot.1, spot.2.toPrice⟩⟩

def getRatesForMultipleTokens (db : Database) (tokens : List TokenAccount) (quote : TokenAccount)
    (start stop : Time) : SortedMap TokenAccount (List TokenRate) :=
  if tokens = [] then .empty
  else
    let rows := db.tokenRates.filter fun rate ↦ tokens.contains rate.base ∧ rate.quote = quote ∧
      start < rate.timestamp ∧ rate.timestamp ≤ stop
    groupBy TokenRate.base (rows.insertionSort fun a b ↦
      a.base < b.base ∨ a.base = b.base ∧ a.timestamp ≤ b.timestamp)

namespace PredictionService

variable (service : PredictionService)

def calculateConfidenceFromInterval (forecast : BigDecimal) (lower upper : Option BigDecimal)
    (timeAhead : Time) : Option BigDecimal := do
  let lower ← lower
  let upper ← upper
  let forecast ← service.toF64 forecast
  if forecast ≤ 0 then none
  else
    let lower ← service.toF64 lower
    let upper ← service.toF64 upper
    if upper < lower then none
    else
      let relativeWidth := (upper - lower) / forecast
      let hours := Float.ofInt (timeAhead.tdiv (60 * second)) / 60
      if hours ≤ 0 then none
      else
        let timeFactor := (if hours < 1 then 1 else hours).sqrt
        let cv := relativeWidth / (2.56 * timeFactor)
        some (service.ofF64 (1 - clampUnit ((cv - 0.03) / (0.15 - 0.03))))

def convertPredictionResult (response : ChronosPredictionResponse) (lastDataTimestamp : Time) :
    List PredictedPrice :=
  response.forecast.entries.map fun (timestamp, price) ↦
    let lower := response.lowerBound.bind (·.get timestamp)
    let upper := response.upperBound.bind (·.get timestamp)
    { timestamp
      price
      confidence := service.calculateConfidenceFromInterval price lower upper
        (timestamp - lastDataTimestamp) }

/-- One attempt. The forecast starts at the last price of the history. -/
def predictPrice (attempt : ℕ) (history : PriceHistory) (predictionHorizon : ℕ) :
    Except String TokenPredictionResult :=
  let data := history.prices.foldl (fun data p ↦ data.insert p.timestamp p.price)
    (.empty : SortedMap Time BigDecimal)
  match data.keys.getLast? with
  | none => .error "No price history available for prediction"
  | some lastDataTimestamp =>
    let forecastUntil := lastDataTimestamp + predictionHorizon * hour
    match service.predictor history.token attempt data forecastUntil with
    | .error _ => .error "Failed to execute prediction"
    | .ok response => .ok
      { token := history.token
        quoteToken := history.quoteToken
        dataCutoffTime := lastDataTimestamp
        predictions := service.convertPredictionResult response lastDataTimestamp }

/-- The first attempt that succeeds, or else the last one. -/
def predictPriceWithRetry (history : PriceHistory) (predictionHorizon : ℕ) :
    Except String TokenPredictionResult :=
  let attempts := List.range service.maxRetries.toNat
  match attempts.findSome? fun k ↦ (service.predictPrice k history predictionHorizon).toOption with
  | some prediction => .ok prediction
  | none => service.predictPrice service.maxRetries.toNat history predictionHorizon

def historyStart : Time := service.asOf - service.historyDays.toNat * day

variable (schedule : ChunkSchedule) (db : Database)

def chunkForecasts (tokens : List TokenAccount) (predictionHorizon : ℕ) :
    List (TokenAccount × TokenPredictionResult) :=
  let historiesMap := getRatesForMultipleTokens db tokens service.quoteToken service.historyStart
    service.asOf
  let results := schedule.arrival <|
    (tokens.filterMap fun token ↦ (historiesMap.get token).map (token, ·)).map
      fun (token, rates) ↦ (token, (service.predictPriceWithRetry
        (priceHistoryOf token service.quoteToken rates) predictionHorizon).toOption)
  results.filterMap fun (token, pred) ↦ pred.map (token, ·)

/-- The forecasts of a chunk, if its histories can be read. A stream that may work on no future
at a time is never done, which is the outer `none`. -/
def predictMultipleTokens (answered : Bool) (tokens : List TokenAccount)
    (predictionHorizon : ℕ) :
    Option (Except String (SortedMap TokenAccount TokenPredictionResult)) :=
  if !answered then some (.error "Failed to batch fetch price histories")
  else if schedule.concurrency = 0 then none
  else
    let allPredictions := (service.chunkForecasts schedule db tokens predictionHorizon).foldl
      (fun m e ↦ m.insert e.1 e.2) .empty
    if allPredictions.entries.isEmpty then
      some (.error s!"Failed to predict any tokens. All {tokens.length} tokens failed.")
    else some (.ok allPredictions)

end PredictionService

def horizonEntry (result : TokenPredictionResult) : Option (BigDecimal × Time) :=
  (result.predictionAtHorizon predictionHorizonHours.toNat).map
    fun p ↦ (p.price, result.dataCutoffTime)

namespace PredictionService

variable (service : PredictionService) (schedule : ChunkSchedule) (db : Database)

def chunkRound (entries : SortedMap TokenAccount (BigDecimal × Time))
    (chunk : List TokenAccount × ℕ) : Option (SortedMap TokenAccount (BigDecimal × Time)) :=
  (service.predictMultipleTokens schedule db (schedule.answered chunk.2) chunk.1
    predictionHorizonHours.toNat).map fun
      | .error _ => entries
      | .ok predictions => predictions.entries.foldl (fun entries (token, result) ↦
          match horizonEntry result with
          | some entry => entries.insert token entry
          | none => entries) entries

def predictionEntries (tokens : List TokenAccount) :
    Option (SortedMap TokenAccount (BigDecimal × Time)) :=
  (chunks (max schedule.chunkSize.toNat 1) tokens).zipIdx.foldlM (service.chunkRound schedule db)
    .empty

def recordEntries (stored : Bool) (now : Time) (tokens : List TokenAccount)
    (table : PredictionTable) (entries : SortedMap TokenAccount (BigDecimal × Time)) :
    Except String ℕ × PredictionTable :=
  if entries.entries.isEmpty ∧ tokens ≠ [] then
    (.error s!"all prediction chunks failed: 0/{tokens.length} tokens produced predictions", table)
  else if entries.entries.isEmpty ∨ stored then
    (.ok entries.size, table.batchInsert now (buildPredictionRecords entries service.quoteToken))
  else (.error "Database interaction error", table)

def runPredictionCycle (stored : Bool) (now : Time) (tokens : List TokenAccount)
    (table : PredictionTable) : Option (Except String ℕ × PredictionTable) :=
  (service.predictionEntries schedule db tokens).map (service.recordEntries stored now tokens table)

end PredictionService

end Model

section Histories

variable {db : Database} {tokens : List TokenAccount} {token quote : TokenAccount}
  {start stop : Time}

theorem get_getRatesForMultipleTokens (h : token ∈ tokens) :
    (getRatesForMultipleTokens db tokens quote start stop).get token =
      let rates := db.getRatesInTimeRange start stop token quote
      if rates = [] then none else some rates := by
  let lex (a b : TokenRate) : Prop := a.base < b.base ∨ a.base = b.base ∧ a.timestamp ≤ b.timestamp
  have : IsTrans TokenRate lex := by
    constructor
    rintro a b c (hab | ⟨hab, htab⟩) (hbc | ⟨hbc, htbc⟩)
    · exact .inl (hab.trans hbc)
    · exact .inl (hbc ▸ hab)
    · exact .inl (hab ▸ hbc)
    · exact .inr ⟨hab.trans hbc, htab.trans htbc⟩
  have : Std.Total lex := by
    constructor
    intro a b
    rcases lt_trichotomy a.base b.base with hlt | heq | hlt
    · exact .inl (.inl hlt)
    · rcases le_total a.timestamp b.timestamp with hle | hle
      · exact .inl (.inr ⟨heq, hle⟩)
      · exact .inr (.inr ⟨heq.symm, hle⟩)
    · exact .inr (.inl hlt)
  have hnil : tokens ≠ [] := List.ne_nil_of_mem h
  have hrows : (db.tokenRates.filter fun rate ↦ tokens.contains rate.base ∧ rate.quote = quote ∧
      start < rate.timestamp ∧ rate.timestamp ≤ stop).filter (·.base = token) =
      db.tokenRates.filter fun rate ↦ start < rate.timestamp ∧ rate.timestamp ≤ stop ∧
        rate.base = token ∧ rate.quote = quote := by
    rw [List.filter_filter]
    apply List.filter_congr
    intro rate _
    by_cases hbase : rate.base = token
    · simp only [hbase, List.contains_iff_mem.2 h]
      grind
    · simp [hbase]
  rw [getRatesForMultipleTokens, if_neg hnil, get_groupBy, filter_insertionSort lex, hrows]
  have hsort : (db.tokenRates.filter fun rate ↦ start < rate.timestamp ∧ rate.timestamp ≤ stop ∧
      rate.base = token ∧ rate.quote = quote).insertionSort lex =
      db.getRatesInTimeRange start stop token quote := by
    apply insertionSort_congr
    intro a ha b hb
    have hbase : a.base = b.base := by
      have hab := And.intro (List.of_mem_filter ha) (List.of_mem_filter hb)
      simp only [decide_eq_true_eq] at hab
      rw [hab.1.2.2.1, hab.2.2.2.1]
    simp [lex, hbase]
  rw [hsort]

end Histories

namespace PredictionService

section Plain

variable (service : PredictionService) (db : Database)

def forecastOf (token : TokenAccount) : Option TokenPredictionResult :=
  (service.predictPriceWithRetry (priceHistoryOf token service.quoteToken
    (db.getRatesInTimeRange service.historyStart service.asOf token service.quoteToken))
    predictionHorizonHours.toNat).toOption

def predictEach (tokens : List TokenAccount)
    (entries : SortedMap TokenAccount (BigDecimal × Time)) :
    SortedMap TokenAccount (BigDecimal × Time) :=
  tokens.foldl (fun entries token ↦
    match (service.forecastOf db token).bind horizonEntry with
    | some entry => entries.insert token entry
    | none => entries) entries

end Plain

def reached (schedule : ChunkSchedule) (tokens : List TokenAccount) : List TokenAccount :=
  ((chunks (max schedule.chunkSize.toNat 1) tokens).zipIdx.filter fun chunk ↦
    schedule.answered chunk.2).flatMap (·.1)

variable {service : PredictionService} {schedule : ChunkSchedule} {db : Database}
  {tokens : List TokenAccount}

theorem flatten_zipIdx_chunks (chunkSize : UInt32) (tokens : List TokenAccount) :
    (chunks (max chunkSize.toNat 1) tokens).zipIdx.flatMap (·.1) = tokens := by
  rw [List.flatMap_def, List.zipIdx_map_fst,
    flatten_chunks (Nat.lt_of_lt_of_le one_pos (le_max_right _ _))]

theorem reached_of_answered (h : ∀ i, schedule.answered i = true) :
    reached schedule tokens = tokens := by
  have hfilter (l : List (List TokenAccount × ℕ)) :
      l.filter (fun chunk ↦ schedule.answered chunk.2) = l :=
    List.filter_eq_self.2 fun chunk _ ↦ h chunk.2
  rw [reached, hfilter, flatten_zipIdx_chunks]

theorem predictPriceWithRetry_nil {history : PriceHistory} {horizon : ℕ}
    (h : history.prices = []) :
    (service.predictPriceWithRetry history horizon).toOption = none := by
  have hattempt (k : ℕ) : service.predictPrice k history horizon =
      .error "No price history available for prediction" := by
    rw [predictPrice, h]
    rfl
  have hnone : ((List.range service.maxRetries.toNat).findSome? fun k ↦
      (service.predictPrice k history horizon).toOption) = none := by
    rw [List.findSome?_eq_none_iff]
    intro k _
    rw [hattempt]
    rfl
  simp only [predictPriceWithRetry, hnone]
  rw [hattempt]
  rfl

theorem perm_chunkForecasts :
    (service.chunkForecasts schedule db tokens predictionHorizonHours.toNat).Perm
      (tokens.filterMap fun token ↦ (service.forecastOf db token).map (token, ·)) := by
  rw [chunkForecasts]
  refine ((schedule.arrival_perm _).filterMap _).trans (.of_eq ?_)
  rw [List.filterMap_map, List.filterMap_filterMap]
  apply List.filterMap_congr
  intro token htoken
  rw [get_getRatesForMultipleTokens htoken]
  by_cases hrates : db.getRatesInTimeRange service.historyStart service.asOf token
      service.quoteToken = []
  · have hnone : service.forecastOf db token = none := by
      rw [forecastOf, hrates]
      exact predictPriceWithRetry_nil rfl
    simp [hrates, hnone]
  · simp [hrates, forecastOf]

theorem predictEach_eq (entries : SortedMap TokenAccount (BigDecimal × Time)) :
    service.predictEach db tokens entries =
      (tokens.filterMap fun token ↦ ((service.forecastOf db token).bind horizonEntry).map
        (token, ·)).foldl (fun m e ↦ m.insert e.1 e.2) entries := by
  rw [predictEach, List.foldl_filterMap]
  congr 1
  funext entries token
  cases (service.forecastOf db token).bind horizonEntry <;> rfl

theorem predictEach_append (tokens₁ tokens₂ : List TokenAccount)
    (entries : SortedMap TokenAccount (BigDecimal × Time)) :
    service.predictEach db (tokens₁ ++ tokens₂) entries =
      service.predictEach db tokens₂ (service.predictEach db tokens₁ entries) :=
  List.foldl_append

theorem foldl_predictions {predictions : SortedMap TokenAccount TokenPredictionResult}
    (hnodup : tokens.Nodup) (hperm : predictions.entries.Perm
      (tokens.filterMap fun token ↦ (service.forecastOf db token).map (token, ·)))
    (entries : SortedMap TokenAccount (BigDecimal × Time)) :
    predictions.entries.foldl (fun entries (token, result) ↦
      match horizonEntry result with
      | some entry => entries.insert token entry
      | none => entries) entries = service.predictEach db tokens entries := by
  have hlists : (predictions.entries.filterMap fun e ↦ (horizonEntry e.2).map (e.1, ·)).Perm
      (tokens.filterMap fun token ↦ ((service.forecastOf db token).bind horizonEntry).map
        (token, ·)) := by
    refine (hperm.filterMap _).trans (.of_eq ?_)
    rw [List.filterMap_filterMap]
    apply List.filterMap_congr
    intro token _
    cases service.forecastOf db token <;> rfl
  have hkeys := hnodup.sublist
    (sublist_keys_filterMap (fun token ↦ (service.forecastOf db token).bind horizonEntry) tokens)
  rw [predictEach_eq, ← SortedMap.foldl_insert_perm hlists ((hlists.map _).nodup_iff.2 hkeys),
    List.foldl_filterMap]
  congr 1
  funext entries ⟨token, result⟩
  dsimp only
  cases horizonEntry result <;> rfl

theorem chunkRound_answered (hconcurrency : schedule.concurrency ≠ 0)
    {chunk : List TokenAccount × ℕ} (hanswered : schedule.answered chunk.2 = true)
    (hnodup : chunk.1.Nodup) (entries : SortedMap TokenAccount (BigDecimal × Time)) :
    service.chunkRound schedule db entries chunk =
      some (service.predictEach db chunk.1 entries) := by
  set forecasts := service.chunkForecasts schedule db chunk.1 predictionHorizonHours.toNat
    with hforecasts
  have hperm : forecasts.Perm
      (chunk.1.filterMap fun token ↦ (service.forecastOf db token).map (token, ·)) :=
    perm_chunkForecasts
  have hkeys : (forecasts.map Prod.fst).Nodup :=
    (hperm.map _).nodup_iff.2 (hnodup.sublist (sublist_keys_filterMap _ _))
  have hfold := foldl_predictions hnodup ((SortedMap.perm_foldl_insert hkeys).trans hperm) entries
  rw [chunkRound, hanswered, predictMultipleTokens, ← hforecasts, if_neg (by simp),
    if_neg hconcurrency, ← hfold]
  dsimp only
  split_ifs with hempty
  · rw [List.isEmpty_iff.1 hempty]
    rfl
  · rfl

theorem chunkRound_unanswered {chunk : List TokenAccount × ℕ}
    (hanswered : schedule.answered chunk.2 = false)
    (entries : SortedMap TokenAccount (BigDecimal × Time)) :
    service.chunkRound schedule db entries chunk = some entries := by
  rw [chunkRound, hanswered]
  rfl

theorem foldlM_chunkRound (hconcurrency : schedule.concurrency ≠ 0)
    {pieces : List (List TokenAccount × ℕ)} (hnodup : ∀ piece ∈ pieces, piece.1.Nodup)
    (entries : SortedMap TokenAccount (BigDecimal × Time)) :
    pieces.foldlM (service.chunkRound schedule db) entries =
      some (service.predictEach db ((pieces.filter fun piece ↦
        schedule.answered piece.2).flatMap (·.1)) entries) := by
  induction pieces generalizing entries with
  | nil => rfl
  | cons piece pieces ih =>
    have hrest : ∀ piece ∈ pieces, piece.1.Nodup := fun p hp ↦ hnodup p (.tail piece hp)
    rw [List.foldlM_cons]
    cases hanswered : schedule.answered piece.2 with
    | false =>
      rw [chunkRound_unanswered hanswered, List.filter_cons_of_neg (by simp [hanswered])]
      exact ih hrest entries
    | true =>
      rw [chunkRound_answered hconcurrency hanswered (hnodup piece List.mem_cons_self),
        List.filter_cons_of_pos (by simp [hanswered]), List.flatMap_cons, predictEach_append]
      exact ih hrest _

/-- A stream that works on no future at a time stops the loop at the first chunk it is made for. -/
theorem foldlM_chunkRound_stuck (hconcurrency : schedule.concurrency = 0)
    (pieces : List (List TokenAccount × ℕ)) (entries : SortedMap TokenAccount (BigDecimal × Time)) :
    pieces.foldlM (service.chunkRound schedule db) entries =
      if pieces.filter (fun piece ↦ schedule.answered piece.2) = [] then some entries
      else none := by
  induction pieces with
  | nil => rfl
  | cons piece pieces ih =>
    rw [List.foldlM_cons]
    cases hanswered : schedule.answered piece.2 with
    | false =>
      rw [chunkRound_unanswered hanswered, List.filter_cons_of_neg (by simp [hanswered])]
      exact ih
    | true =>
      rw [chunkRound, hanswered, predictMultipleTokens, if_neg (by simp), if_pos hconcurrency,
        List.filter_cons_of_pos (by simp [hanswered]), if_neg (List.cons_ne_nil _ _)]
      rfl

theorem reached_eq_nil :
    reached schedule tokens = [] ↔
      (chunks (max schedule.chunkSize.toNat 1) tokens).zipIdx.filter
        (fun chunk ↦ schedule.answered chunk.2) = [] := by
  constructor
  · intro h
    rw [reached, List.flatMap_eq_nil_iff] at h
    rw [List.eq_nil_iff_forall_not_mem]
    intro piece hpiece
    have hlength := (length_chunk (Nat.lt_of_lt_of_le one_pos (le_max_right _ _))
      (List.fst_mem_of_mem_zipIdx (List.mem_of_mem_filter hpiece))).1
    rw [h piece hpiece] at hlength
    exact absurd hlength (by simp)
  · intro h
    rw [reached, h]
    rfl

theorem predictionEntries_eq (hnodup : tokens.Nodup) :
    service.predictionEntries schedule db tokens =
      if schedule.concurrency = 0 ∧ reached schedule tokens ≠ [] then none
      else some (service.predictEach db (reached schedule tokens) .empty) := by
  rw [predictionEntries]
  by_cases hconcurrency : schedule.concurrency = 0
  · rw [foldlM_chunkRound_stuck hconcurrency]
    by_cases hreached : reached schedule tokens = []
    · rw [if_pos (reached_eq_nil.1 hreached), if_neg (by simp [hreached]), hreached]
      rfl
    · rw [if_neg (mt reached_eq_nil.2 hreached), if_pos ⟨hconcurrency, hreached⟩]
  · rw [if_neg (by simp [hconcurrency])]
    apply foldlM_chunkRound hconcurrency
    intro piece hpiece
    have hmem : piece.1 ∈ chunks (max schedule.chunkSize.toNat 1) tokens :=
      List.fst_mem_of_mem_zipIdx hpiece
    obtain ⟨i, -, hi⟩ := List.mem_map.1 hmem
    rw [← hi]
    exact hnodup.sublist ((List.take_sublist _ _).trans (List.drop_sublist _ _))

/-- Cutting the tokens into chunks, reading the histories of a chunk at once and forecasting
concurrently does what the plain loop does for the tokens of the chunks that can be read; when all
of them can, no part of the schedule matters. With a concurrency of 0 the cycle never ends. -/
theorem runPredictionCycle_eq (hnodup : tokens.Nodup) (stored : Bool) (now : Time)
    (table : PredictionTable) :
    (service.runPredictionCycle schedule db stored now tokens table =
      if schedule.concurrency = 0 ∧ reached schedule tokens ≠ [] then none
      else some (service.recordEntries stored now tokens table
        (service.predictEach db (reached schedule tokens) .empty))) ∧
      ((∀ i, schedule.answered i = true) → reached schedule tokens = tokens) := by
  refine ⟨?_, reached_of_answered⟩
  rw [runPredictionCycle, predictionEntries_eq hnodup]
  split_ifs <;> rfl

def naive : PredictionService where
  predictor _ _ data forecastUntil :=
    .ok ⟨(SortedMap.empty : SortedMap Time BigDecimal).insert forecastUntil
      ((data.entries.getLast?.map Prod.snd).getD 0), none, none⟩
  maxRetries := 2
  toF64 _ := none
  ofF64 _ := 0
  quoteToken := ⟨"wrap.near"⟩
  historyDays := 7
  asOf := 10 * day

def secondUnread : ChunkSchedule where
  chunkSize := 0
  concurrency := 4
  answered i := i ≠ 1
  arrival := List.reverse
  arrival_perm := List.reverse_perm

def twoRates : Database :=
  ratesOnly [⟨⟨"aurora"⟩, ⟨"wrap.near"⟩, ⟨10 ^ 18, 18⟩, 9 * day, 0, none⟩,
    ⟨⟨"usdt"⟩, ⟨"wrap.near"⟩, ⟨10 ^ 6, 6⟩, 8 * day, 0, none⟩]

theorem runPredictionCycle_eq_secondUnread :
    [(⟨"aurora"⟩ : TokenAccount), ⟨"usdt"⟩].Nodup ∧
      (naive.runPredictionCycle secondUnread twoRates true (10 * day)
          [⟨"aurora"⟩, ⟨"usdt"⟩] ⟨[], 1⟩ =
        some (naive.recordEntries true (10 * day) [⟨"aurora"⟩, ⟨"usdt"⟩] ⟨[], 1⟩
          (naive.predictEach twoRates [⟨"aurora"⟩] .empty))) ∧
      (naive.predictEach twoRates [⟨"aurora"⟩] .empty).get ⟨"aurora"⟩ = some (1, 9 * day) := by
  have hnodup : [(⟨"aurora"⟩ : TokenAccount), ⟨"usdt"⟩].Nodup := by decide
  have hreached : reached secondUnread [⟨"aurora"⟩, ⟨"usdt"⟩] = [⟨"aurora"⟩] := by decide
  refine ⟨hnodup, ?_, by decide +kernel⟩
  rw [(runPredictionCycle_eq hnodup true (10 * day) ⟨[], 1⟩).1, if_neg (by decide), hreached]

end PredictionService

section Records

variable {service : PredictionService} {db : Database} {tokens : List TokenAccount}
  {token : TokenAccount}

theorem timestamp_of_mem_toSpotRates {rates : List TokenRate} {spot : Time × ExchangeRate}
    (h : spot ∈ TokenRate.toSpotRates rates) : ∃ rate ∈ rates, rate.timestamp = spot.1 := by
  induction rates with
  | nil => cases h
  | cons rate rates ih =>
    have hrest (h : spot ∈ TokenRate.toSpotRates rates) :
        ∃ r ∈ rate :: rates, r.timestamp = spot.1 := by
      obtain ⟨r, hr, htime⟩ := ih h
      exact ⟨r, .tail rate hr, htime⟩
    simp only [TokenRate.toSpotRates] at h
    split_ifs at h
    · exact hrest h
    · rcases List.mem_cons.1 h with rfl | h
      · exact ⟨rate, List.mem_cons_self, rfl⟩
      · exact hrest h

namespace PredictionService

variable (service db) in
/-- The prices that the library gets for a token: those stored for the window of the service. -/
def storedPrices (token : TokenAccount) : SortedMap Time BigDecimal :=
  (priceHistoryOf token service.quoteToken (db.getRatesInTimeRange service.historyStart
    service.asOf token service.quoteToken)).prices.foldl
      (fun data p ↦ data.insert p.timestamp p.price) .empty

theorem rate_of_storedPrices {cutoff : Time}
    (h : (service.storedPrices db token).keys.getLast? = some cutoff) :
    service.historyStart < cutoff ∧ cutoff ≤ service.asOf ∧ ∃ rate ∈ db.tokenRates,
      rate.base = token ∧ rate.quote = service.quoteToken ∧ rate.timestamp = cutoff := by
  obtain ⟨price, hget⟩ := SortedMap.exists_get (List.mem_of_getLast? h)
  rw [storedPrices, ← List.foldl_map (f := fun p : PricePoint ↦ (p.timestamp, p.price))
    (g := fun (m : SortedMap Time BigDecimal) e ↦ m.insert e.1 e.2)] at hget
  obtain hempty | hmem := SortedMap.of_get_foldl_insert hget
  · cases hempty
  · obtain ⟨point, hpoint, hpair⟩ := List.mem_map.1 hmem
    obtain ⟨spot, hspot, rfl⟩ := List.mem_map.1 hpoint
    obtain ⟨rate, hrate, hstamp⟩ := timestamp_of_mem_toSpotRates hspot
    have hrow := (List.perm_insertionSort _ _).mem_iff.1 hrate
    rw [List.mem_filter, decide_eq_true_eq] at hrow
    obtain ⟨hrow, hafter, hbefore, hbase, hquote⟩ := hrow
    obtain rfl : rate.timestamp = cutoff := hstamp.trans (congrArg Prod.fst hpair)
    exact ⟨hafter, hbefore, rate, hrow, hbase, hquote, rfl⟩

theorem predictPriceWithRetry_toOption (history : PriceHistory) (horizon : ℕ) :
    (service.predictPriceWithRetry history horizon).toOption =
      (List.range (service.maxRetries.toNat + 1)).findSome? fun k ↦
        (service.predictPrice k history horizon).toOption := by
  rw [List.range_succ, List.findSome?_append, predictPriceWithRetry]
  cases (List.range service.maxRetries.toNat).findSome? fun k ↦
      (service.predictPrice k history horizon).toOption with
  | some prediction => rfl
  | none =>
    rw [Option.none_or]
    exact (List.findSome?_singleton ..).symm

/-- What the library answers for a token from the stored prices, the last of which is at `cutoff`:
the result of the first attempt that succeeds. -/
def Answers (service : PredictionService) (db : Database) (token : TokenAccount) (cutoff : Time)
    (response : ChronosPredictionResponse) : Prop :=
  (service.storedPrices db token).keys.getLast? = some cutoff ∧
    ∃ attempt ≤ service.maxRetries.toNat,
      (service.predictor token attempt (service.storedPrices db token)
        (cutoff + 24 * hour)).toOption = some response ∧
      ∀ k < attempt, (service.predictor token k (service.storedPrices db token)
        (cutoff + 24 * hour)).toOption = none

theorem predictPrice_toOption (attempt : ℕ) :
    (service.predictPrice attempt (priceHistoryOf token service.quoteToken
      (db.getRatesInTimeRange service.historyStart service.asOf token service.quoteToken))
      predictionHorizonHours.toNat).toOption =
    (service.storedPrices db token).keys.getLast?.bind fun cutoff ↦
      (service.predictor token attempt (service.storedPrices db token)
        (cutoff + 24 * hour)).toOption.map fun response ↦
          ⟨token, service.quoteToken, cutoff, service.convertPredictionResult response cutoff⟩ := by
  rw [predictPrice, storedPrices]
  dsimp only
  cases List.getLast? _ with
  | none => rfl
  | some cutoff =>
    change Except.toOption (match service.predictor token attempt _ (cutoff + 24 * hour) with
      | .error _ => _
      | .ok response => _) = Option.map _ (Except.toOption (service.predictor token attempt _ _))
    cases service.predictor token attempt _ (cutoff + 24 * hour) <;> rfl

theorem forecastOf_eq_some {result : TokenPredictionResult} :
    service.forecastOf db token = some result ↔ ∃ cutoff response,
      Answers service db token cutoff response ∧
      result = ⟨token, service.quoteToken, cutoff,
        service.convertPredictionResult response cutoff⟩ := by
  rw [forecastOf, predictPriceWithRetry_toOption, findSome?_range_eq_some]
  simp only [predictPrice_toOption]
  constructor
  · rintro ⟨attempt, hattempt, hsome, hnone⟩
    obtain ⟨cutoff, hcutoff, hmap⟩ := Option.bind_eq_some_iff.1 hsome
    obtain ⟨response, hresponse, rfl⟩ := Option.map_eq_some_iff.1 hmap
    refine ⟨cutoff, response, ⟨hcutoff, attempt, Nat.le_of_lt_succ hattempt, hresponse, ?_⟩, rfl⟩
    intro k hk
    have hk := hnone k hk
    rwa [hcutoff, Option.bind_some, Option.map_eq_none_iff] at hk
  · rintro ⟨cutoff, response, ⟨hcutoff, attempt, hattempt, hresponse, hnone⟩, rfl⟩
    refine ⟨attempt, Nat.lt_succ_of_le hattempt, ?_, fun k hk ↦ ?_⟩
    · rw [hcutoff, Option.bind_some, hresponse, Option.map_some]
    · rw [hcutoff, Option.bind_some, hnone k hk, Option.map_none]

/-- A row for a token: the price that the library gives for the time closest to the target, from
the prices stored for the window of the service. -/
structure IsForecast (service : PredictionService) (db : Database) (token : TokenAccount)
    (row : NewPredictionRecord) : Prop where
  ofToken : row.token = toString token
  inQuote : row.quoteToken = toString service.quoteToken
  after : service.historyStart < row.dataCutoffTime
  before : row.dataCutoffTime ≤ service.asOf
  rate : ∃ rate ∈ db.tokenRates, rate.base = token ∧ rate.quote = service.quoteToken ∧
    rate.timestamp = row.dataCutoffTime
  target : row.targetTime = row.dataCutoffTime + 24 * hour
  forecast : ∃ response time, Answers service db token row.dataCutoffTime response ∧
    response.forecast.get time = some row.predictedPrice ∧ |time - row.targetTime| ≤ hour ∧
    ∀ other ∈ response.forecast.keys, |time - row.targetTime| ≤ |other - row.targetTime|

theorem horizonEntry_some {result : TokenPredictionResult} {price : BigDecimal} {cutoff : Time}
    (h : horizonEntry result = some (price, cutoff)) :
    result.dataCutoffTime = cutoff ∧ ∃ p ∈ result.predictions, p.price = price ∧
      |p.timestamp - (cutoff + 24 * hour)| ≤ hour ∧ ∀ other ∈ result.predictions,
        |p.timestamp - (cutoff + 24 * hour)| ≤ |other.timestamp - (cutoff + 24 * hour)| := by
  obtain ⟨p, hp, heq⟩ := Option.map_eq_some_iff.1 h
  cases heq
  rw [TokenPredictionResult.predictionAtHorizon, if_neg (by decide)] at hp
  have hmem := List.argmin_mem (Option.mem_def.2 hp)
  rw [List.mem_filter, decide_eq_true_eq] at hmem
  refine ⟨rfl, p, hmem.1, rfl, hmem.2, fun other hother ↦ ?_⟩
  by_cases hnear : |other.timestamp - (result.dataCutoffTime + 24 * hour)| ≤ hour
  · exact List.le_of_mem_argmin (f := fun p : PredictedPrice ↦
      |p.timestamp - (result.dataCutoffTime + 24 * hour)|)
      (List.mem_filter.2 ⟨hother, decide_eq_true hnear⟩) (Option.mem_def.2 hp)
  · exact hmem.2.trans (not_le.1 hnear).le

theorem exists_horizonEntry (result : TokenPredictionResult) {p : PredictedPrice}
    (hp : p ∈ result.predictions)
    (hnear : |p.timestamp - (result.dataCutoffTime + 24 * hour)| ≤ hour) :
    ∃ price, horizonEntry result = some (price, result.dataCutoffTime) := by
  rw [horizonEntry]
  cases hclosest : result.predictionAtHorizon predictionHorizonHours.toNat with
  | some q => exact ⟨q.price, rfl⟩
  | none =>
    rw [TokenPredictionResult.predictionAtHorizon, if_neg (by decide)] at hclosest
    have hfilter := List.filter_eq_nil_iff.1 (List.argmin_eq_none.1 hclosest) p hp
    exact absurd (decide_eq_true hnear) hfilter

theorem isForecast_of_forecastOf {price : BigDecimal} {cutoff : Time}
    (h : (service.forecastOf db token).bind horizonEntry = some (price, cutoff)) :
    IsForecast service db token
      { token := toString token
        quoteToken := toString service.quoteToken
        predictedPrice := price
        dataCutoffTime := cutoff
        targetTime := cutoff + predictionHorizonHours * hour } := by
  obtain ⟨result, hresult, hentry⟩ := Option.bind_eq_some_iff.1 h
  obtain ⟨_, response, hanswers, rfl⟩ := forecastOf_eq_some.1 hresult
  obtain ⟨rfl, p, hp, rfl, hnear, hclosest⟩ := horizonEntry_some hentry
  obtain ⟨hafter, hbefore, hrate⟩ := rate_of_storedPrices hanswers.1
  obtain ⟨entry, hmem, rfl⟩ := List.mem_map.1 hp
  refine ⟨rfl, rfl, hafter, hbefore, hrate, rfl, response, entry.1, hanswers,
    SortedMap.get_eq_some.2 hmem, hnear, fun other hother ↦ ?_⟩
  obtain ⟨price, hprice⟩ := SortedMap.mem_keys.1 hother
  exact hclosest _ (List.mem_map_of_mem hprice)

theorem forecastOf_of_isForecast {row : NewPredictionRecord}
    (h : IsForecast service db token row) :
    ∃ entry, (service.forecastOf db token).bind horizonEntry = some entry := by
  obtain ⟨response, time, hanswers, hprice, hnear, -⟩ := h.forecast
  rw [h.target] at hnear
  have hmem : (time, row.predictedPrice) ∈ response.forecast.entries :=
    SortedMap.get_eq_some.1 hprice
  obtain ⟨price, hentry⟩ := exists_horizonEntry ⟨token, service.quoteToken,
    row.dataCutoffTime, service.convertPredictionResult response row.dataCutoffTime⟩
    (List.mem_map_of_mem hmem) hnear
  rw [forecastOf_eq_some.2 ⟨_, response, hanswers, rfl⟩, Option.bind_some]
  exact ⟨_, hentry⟩

theorem get_predictEach (hnodup : tokens.Nodup) {entry : BigDecimal × Time} :
    (service.predictEach db tokens .empty).get token = some entry ↔
      token ∈ tokens ∧ (service.forecastOf db token).bind horizonEntry = some entry := by
  rw [predictEach_eq, SortedMap.get_eq_some, (SortedMap.perm_foldl_insert
    (hnodup.sublist (sublist_keys_filterMap _ _))).mem_iff, List.mem_filterMap]
  constructor
  · rintro ⟨t, ht, heq⟩
    obtain ⟨e, he, hpair⟩ := Option.map_eq_some_iff.1 heq
    cases hpair
    exact ⟨ht, he⟩
  · rintro ⟨ht, he⟩
    exact ⟨token, ht, by rw [he]; rfl⟩

theorem reached_sublist (schedule : ChunkSchedule) (tokens : List TokenAccount) :
    (reached schedule tokens).Sublist tokens := by
  nth_rewrite 2 [← flatten_zipIdx_chunks schedule.chunkSize tokens]
  exact List.filter_sublist.flatMap _

theorem nodup_buildPredictionRecords (entries : SortedMap TokenAccount (BigDecimal × Time))
    (quoteToken : TokenAccount) :
    ((buildPredictionRecords entries quoteToken).map (·.token)).Nodup := by
  have hkeys : (buildPredictionRecords entries quoteToken).map (·.token) =
      entries.keys.map toString := by
    rw [buildPredictionRecords, List.map_map, SortedMap.keys, List.map_map]
    rfl
  rw [hkeys]
  exact entries.keys_nodup.map TokenAccount.account_injective

/-- A cycle that succeeds adds one row for each token of the chunks it could read that the library
has a forecast for, made from the prices stored for the window. A cycle that fails adds none. -/
theorem runPredictionCycle_rows {schedule : ChunkSchedule} {stored : Bool} {now : Time}
    {table table' : PredictionTable} {outcome : Except String ℕ} (hnodup : tokens.Nodup)
    (h : service.runPredictionCycle schedule db stored now tokens table = some (outcome, table')) :
    match outcome with
    | .error _ => table' = table
    | .ok count => ∃ rows : List NewPredictionRecord,
      table' = table.batchInsert now rows ∧ rows.length = count ∧ (rows.map (·.token)).Nodup ∧
        (∀ row ∈ rows, ∃ token ∈ reached schedule tokens, IsForecast service db token row) ∧
        ∀ token ∈ reached schedule tokens, (∃ row, IsForecast service db token row) →
          ∃ row ∈ rows, IsForecast service db token row := by
  rw [runPredictionCycle, predictionEntries_eq hnodup] at h
  split_ifs at h
  · cases h
  · replace h := Option.some.inj h
    set entries := service.predictEach db (reached schedule tokens) .empty with hentries
    have hreached := hnodup.sublist (reached_sublist schedule tokens)
    rw [recordEntries] at h
    split_ifs at h <;> cases h
    · rfl
    · refine ⟨buildPredictionRecords entries service.quoteToken, rfl, List.length_map _,
        nodup_buildPredictionRecords _ _, fun row hrow ↦ ?_, fun token htoken hrow ↦ ?_⟩
      · obtain ⟨⟨token, price, cutoff⟩, hentry, rfl⟩ := List.mem_map.1 hrow
        obtain ⟨htoken, hforecast⟩ := (get_predictEach hreached).1 (SortedMap.get_eq_some.2 hentry)
        exact ⟨token, htoken, isForecast_of_forecastOf hforecast⟩
      · obtain ⟨row, hrow⟩ := hrow
        obtain ⟨entry, hforecast⟩ := forecastOf_of_isForecast hrow
        have hentry := SortedMap.get_eq_some.1 ((get_predictEach hreached).2 ⟨htoken, hforecast⟩)
        exact ⟨_, List.mem_map_of_mem hentry, isForecast_of_forecastOf hforecast⟩
    · rfl

theorem runPredictionCycle_rows_secondUnread :
    ∃ table' row, naive.runPredictionCycle secondUnread twoRates true (10 * day)
        [⟨"aurora"⟩, ⟨"usdt"⟩] ⟨[], 1⟩ = some (.ok 1, table') ∧
      table' = PredictionTable.batchInsert ⟨[], 1⟩ (10 * day) [row] ∧
      IsForecast naive twoRates ⟨"aurora"⟩ row := by
  have hcount : (naive.runPredictionCycle secondUnread twoRates true (10 * day)
      [⟨"aurora"⟩, ⟨"usdt"⟩] ⟨[], 1⟩).map (·.1.toOption) = some (some 1) := by decide +kernel
  obtain ⟨⟨outcome, table'⟩, hrun, hok⟩ := Option.map_eq_some_iff.1 hcount
  cases outcome with
  | error e => cases hok
  | ok count =>
    obtain rfl : count = 1 := Option.some.inj hok
    obtain ⟨rows, htable, hlength, -, hrows, -⟩ := runPredictionCycle_rows (by decide) hrun
    obtain ⟨row, rfl⟩ := List.length_eq_one_iff.1 hlength
    obtain ⟨token, htoken, hforecast⟩ := hrows row (List.mem_singleton_self row)
    have hreached : reached secondUnread [⟨"aurora"⟩, ⟨"usdt"⟩] = [⟨"aurora"⟩] := by decide
    rw [hreached, List.mem_singleton] at htoken
    exact ⟨table', row, hrun, htable, htoken ▸ hforecast⟩

end PredictionService

end Records

end Zaciraci.Trade
