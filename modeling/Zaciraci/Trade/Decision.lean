import Zaciraci.Portfolio.Report
import Zaciraci.Simulate.LookAhead

namespace Zaciraci.Trade

open Lib Program Persistence Storage

section Model

/-- The data with each `f64` read as the number that `value` says. -/
def TokenData.exact (value : Float → ℚ) (t : TokenData Float) : TokenData ℚ :=
  { t with
    historicalVolatility := value t.historicalVolatility
    liquidityScore := t.liquidityScore.map value }

def PortfolioData.exact (value : Float → ℚ) (data : PortfolioData Float) : PortfolioData ℚ :=
  { data with
    tokens := data.tokens.map (TokenData.exact value)
    predictionConfidences := data.predictionConfidences.map value }

/-- The analysis with `execute_portfolio_optimization` in exact numbers. -/
def Analysis.exact (analysis : Analysis) (value : Float → ℚ) (sqrt : ℚ → ℚ)
    (lib : Portfolio.Decompositions ℚ) (eigen : Portfolio.SymmetricEigen ℚ) : Analysis :=
  { analysis with
    optimize := fun wallet data rebalanceThreshold ↦
      .ok (Portfolio.executePortfolioOptimization sqrt lib eigen wallet (data.exact value)
        (value rebalanceThreshold)).actions }

end Model

section Measured

variable {setting : Setting} {analysis : Analysis} {client : Client}

theorem mem_keys_batchPredictions {records : List PredictionRecord} {token : TokenAccount}
    (h : token ∈ (batchPredictions records).keys) :
    ∃ r ∈ records, parseToken r.token = .ok token := by
  refine List.foldlRecOn (motive := fun m : SortedMap TokenAccount BigDecimal ↦
    token ∈ m.keys → ∃ r ∈ records, parseToken r.token = .ok token) records _ ?_ ?_ h
  · intro hempty
    cases hempty
  · intro predictions ih r hr hkeys
    cases hparse : parseToken r.token with
    | error e =>
      rw [hparse] at hkeys
      exact ih hkeys
    | ok token' =>
      rw [hparse] at hkeys
      obtain rfl | hkeys := SortedMap.mem_keys_insert.1 hkeys
      · exact ⟨r, hr, hparse⟩
      · exact ih hkeys

theorem returns_loadHistory {predictions : SortedMap TokenAccount BigDecimal}
    {startDate endDate : Time} (token : TokenAccount) :
    Returns (fun _ result ↦ ∀ history ∈ result,
        history.token = token ∧ history.token ∈ predictions.keys)
      (loadHistory setting analysis predictions startDate endDate token) := by
  rw [loadHistory]
  split
  · simp
  · next predictedPrice hpredicted =>
    refine (returns_true _).bind fun _ history _ ↦ returns_pure.2 ?_
    intro result hresult
    simp only [Option.mem_def, Option.bind_eq_bind, Option.bind_eq_some_iff] at hresult
    obtain ⟨prices, -, current, -, volatility, -, hsome⟩ := hresult
    cases hsome
    exact ⟨rfl, SortedMap.mem_keys_of_get hpredicted⟩

theorem returns_measureToken (history : TokenHistory) :
    Returns (fun _ result ↦ ∀ measured ∈ result,
        measured.1 = history ∧ measured.2.symbol = measured.1.token)
      (measureToken analysis client history) := by
  refine returns_perform.2 fun balance ↦ (returns_true _).bind fun _ decimals _ ↦ ?_
  cases decimals with
  | error e => simp
  | ok decimals =>
    refine returns_perform.2 fun supply ↦ returns_pure.2 ?_
    intro measured hmeasured
    cases hmeasured
    exact ⟨rfl, rfl⟩

/-- The tokens that were measured are some of those asked for, in their order, and each has a
prediction. -/
structure Measured (tokens : List TokenAccount) (predictions : SortedMap TokenAccount BigDecimal)
    (measured : List (TokenHistory × TokenData Float)) : Prop where
  sublist : (measured.map (·.2.symbol)).Sublist tokens
  predicted : ∀ t ∈ measured, t.2.symbol ∈ predictions.keys

theorem measured_of_forall₂ {tokens : List TokenAccount}
    {predictions : SortedMap TokenAccount BigDecimal} {histories : List (Option TokenHistory)}
    {results : List (Option (TokenHistory × TokenData Float))}
    (hhistories : List.Forall₂ (fun token result ↦ ∀ history ∈ result,
      history.token = token ∧ history.token ∈ predictions.keys) tokens histories)
    (hresults : List.Forall₂ (fun history result ↦ ∀ measured ∈ result,
      measured.1 = history ∧ measured.2.symbol = measured.1.token) histories.reduceOption results) :
    Measured tokens predictions results.reduceOption := by
  obtain ⟨htokens, hpredicted⟩ := sublist_of_forall₂ (f := TokenHistory.token) hhistories
  obtain ⟨hsublist, hsymbol⟩ := sublist_of_forall₂ (f := Prod.fst) hresults
  refine ⟨?_, fun t ht ↦ ?_⟩
  · have hmap : results.reduceOption.map (·.2.symbol) =
        (results.reduceOption.map Prod.fst).map TokenHistory.token := by
      rw [List.map_map]
      exact List.map_congr_left hsymbol
    rw [hmap]
    exact (hsublist.map _).trans htokens
  · rw [hsymbol t ht]
    exact hpredicted t.1 (hsublist.subset (List.mem_map_of_mem ht))

end Measured

section Decision

variable {setting : Setting} {analysis : Analysis} {client : Client} {wallet : Wallet}
  {params : PortfolioStrategyParams} {cfg : ConfigAccess}

/-- A portfolio that a strategy with the exchanges `τ` may decide on: one to six of the tokens of
the period, together one up to the rounding and each with at least a twentieth. Each has a
prediction among the fresh ones that were read, and no confidence below the minimum. -/
structure Decided (analysis : Analysis) (params : PortfolioStrategyParams) (cfg : ConfigAccess)
    (τ : List TradeExchange) (weights : SortedMap TokenAccount BigDecimal) : Prop where
  one_le_size : 1 ≤ weights.size
  size_le : weights.size ≤ 6
  listed : ∀ token ∈ weights.keys, token ∈ params.tokens
  weight_ge : ∀ token weight, weights.get token = some weight → 1 / 20 ≤ weight
  total_close : |weights.total - 1| ≤ 3 / 10 ^ 10
  predicted : ∃ records,
    ⟨.db (.latestFreshPredictions params.tokens params.endDate), .ok records⟩ ∈ τ ∧
    ∀ token ∈ weights.keys, ∃ r ∈ records, parseToken r.token = .ok token
  confident : ∃ limit tokens records,
    ⟨.db (.recentEvaluatedForTokens limit tokens), .ok records⟩ ∈ τ ∧
    ∀ token ∈ weights.keys, isConfident cfg (analysis.confidence records tokens) token = true

theorem returns_calculatePerTokenConfidence (tokens : List TokenAccount) :
    Returns (fun τ result ↦ ∀ confidences, result = .ok confidences → ∃ limit records,
        ⟨.db (.recentEvaluatedForTokens limit tokens), .ok records⟩ ∈ τ ∧
        confidences = analysis.confidence records tokens)
      (calculatePerTokenConfidence analysis tokens cfg).attempt := by
  refine always_ask.2 fun answer ↦ ?_
  cases answer with
  | error e =>
    refine always_done.2 fun result hresult confidences hconfidences ↦ ?_
    cases hresult
    cases hconfidences
  | ok records =>
    refine always_done.2 fun result hresult confidences hconfidences ↦ ?_
    cases hresult
    cases hconfidences
    exact ⟨_, records, List.mem_singleton_self _, rfl⟩

theorem portfolioData_symbols_sublist {measured : List (TokenHistory × TokenData Float)}
    {confidences : SortedMap TokenAccount Float} (value : Float → ℚ) :
    (((portfolioData cfg measured confidences).exact value).tokens.map (·.symbol)).Sublist
      (measured.map (·.2.symbol)) := by
  have hexact : ((portfolioData cfg measured confidences).exact value).tokens.map (·.symbol) =
      (portfolioData cfg measured confidences).tokens.map (·.symbol) := by
    rw [PortfolioData.exact, List.map_map]
    rfl
  have hmeasured : measured.map (·.2.symbol) = (measured.map Prod.snd).map TokenData.symbol := by
    rw [List.map_map]
    rfl
  rw [hexact, hmeasured]
  exact List.filter_sublist.map _

theorem mem_portfolioData {measured : List (TokenHistory × TokenData Float)}
    {confidences : SortedMap TokenAccount Float} {value : Float → ℚ} {t : TokenData ℚ}
    (ht : t ∈ ((portfolioData cfg measured confidences).exact value).tokens) :
    (∃ m ∈ measured, m.2.symbol = t.symbol) ∧ isConfident cfg confidences t.symbol = true := by
  obtain ⟨t', ht', rfl⟩ := List.mem_map.1 ht
  obtain ⟨hmem, hconfident⟩ := List.mem_filter.1 ht'
  obtain ⟨m, hm, rfl⟩ := List.mem_map.1 hmem
  exact ⟨⟨m, hm, rfl⟩, hconfident⟩

variable {measured : List (TokenHistory × TokenData Float)} {value : Float → ℚ}

theorem optimize_measured {predictions : SortedMap TokenAccount BigDecimal}
    (hmeasured : Measured params.tokens predictions measured) (hnodup : params.tokens.Nodup)
    (hlength : params.tokens.length < 10 ^ 8) (confidences : SortedMap TokenAccount Float)
    (sqrt : ℚ → ℚ) (lib : Portfolio.Decompositions ℚ) (eigen : Portfolio.SymmetricEigen ℚ)
    (info : WalletInfo) (threshold : ℚ) :
    let data := (portfolioData cfg measured confidences).exact value
    let actions :=
      (Portfolio.executePortfolioOptimization sqrt lib eigen info data threshold).actions
    actions = [.hold] ∨ ∃ weights, actions = [.rebalance weights] ∧
      Portfolio.IsTarget (Portfolio.PortfolioData.selectedTokens data) weights := by
  intro data actions
  have hsublist : (data.tokens.map (·.symbol)).Sublist params.tokens :=
    (portfolioData_symbols_sublist value).trans hmeasured.sublist
  have hlt : data.tokens.length < 10 ^ 8 := by
    have hle := hsublist.length_le
    rw [List.length_map] at hle
    exact hle.trans_lt hlength
  have hactions : actions = _ := Portfolio.executePortfolioOptimization_actions sqrt lib eigen info
    threshold (hnodup.sublist hsublist) hlt
  rw [hactions]
  split_ifs with hneeded
  · refine .inr ⟨_, rfl, ?_⟩
    refine Portfolio.executePortfolioOptimization_isTarget sqrt lib eigen info threshold
      (hnodup.sublist hsublist) hlt fun hnil ↦ ?_
    obtain ⟨i, -⟩ := (Portfolio.rebalanceNeeded_iff sqrt lib eigen info data threshold).1 hneeded
    rw [hnil] at i
    exact i.elim0
  · exact .inl rfl

theorem decided_of_isTarget {records evaluated : List PredictionRecord} {limit : ℤ}
    {tokens : List TokenAccount} {τ : List TradeExchange}
    {weights : SortedMap TokenAccount BigDecimal}
    (hmeasured : Measured params.tokens (batchPredictions records) measured)
    (htarget : Portfolio.IsTarget (Portfolio.PortfolioData.selectedTokens
      ((portfolioData cfg measured (analysis.confidence evaluated tokens)).exact value)) weights)
    (hrecords : ⟨.db (.latestFreshPredictions params.tokens params.endDate), .ok records⟩ ∈ τ)
    (hevaluated : ⟨.db (.recentEvaluatedForTokens limit tokens), .ok evaluated⟩ ∈ τ) :
    Decided analysis params cfg τ weights := by
  have hkeys (token : TokenAccount) (htoken : token ∈ weights.keys) :
      (∃ m ∈ measured, m.2.symbol = token) ∧
        isConfident cfg (analysis.confidence evaluated tokens) token = true := by
    obtain ⟨t, ht, rfl⟩ := htarget.selected token htoken
    exact mem_portfolioData ((Portfolio.PortfolioData.selectedTokens_sublist _).subset ht)
  refine ⟨htarget.one_le_size, htarget.size_le, fun token htoken ↦ ?_, htarget.weight_ge,
    htarget.total_close, ⟨records, hrecords, fun token htoken ↦ ?_⟩,
    ⟨limit, tokens, evaluated, hevaluated, fun token htoken ↦ (hkeys token htoken).2⟩⟩
  · obtain ⟨⟨m, hm, rfl⟩, -⟩ := hkeys token htoken
    exact hmeasured.sublist.subset (List.mem_map_of_mem hm)
  · obtain ⟨⟨m, hm, rfl⟩, -⟩ := hkeys token htoken
    exact mem_keys_batchPredictions (hmeasured.predicted m hm)

/-- Every strategy that returns decides to hold, or on one such portfolio. -/
theorem executePortfolioStrategy_decided (setting : Setting) (analysis : Analysis)
    (client : Client) (wallet : Wallet) (params : PortfolioStrategyParams) (cfg : ConfigAccess)
    (value : Float → ℚ) (sqrt : ℚ → ℚ) (lib : Portfolio.Decompositions ℚ)
    (eigen : Portfolio.SymmetricEigen ℚ) (hnodup : params.tokens.Nodup)
    (hlength : params.tokens.length < 10 ^ 8) :
    Returns (fun τ result ↦ result.1 = [.hold] ∨ ∃ weights, result.1 = [.rebalance weights] ∧
        Decided analysis params cfg τ weights)
      (executePortfolioStrategy setting (analysis.exact value sqrt lib eigen) client wallet params
        cfg) := by
  refine returns_perform.2 fun answer ↦ ?_
  cases answer with
  | error e => exact returns_fail
  | ok records =>
    refine Returns.ite (fun _ ↦ returns_fail) fun _ ↦ ?_
    refine (returns_mapM returns_loadHistory _).bind fun τ₁ histories hhistories ↦ ?_
    refine (returns_mapM returns_measureToken _).bind fun τ₂ results hresults ↦ ?_
    have hmeasured := measured_of_forall₂ hhistories hresults
    refine Returns.ite (fun _ ↦ returns_fail) fun _ ↦ ?_
    refine (returns_calculatePerTokenConfidence _).bind fun τ₃ result hresult ↦ ?_
    cases result with
    | error e => exact returns_pure.2 (.inl rfl)
    | ok confidences =>
      obtain ⟨limit, evaluated, hevaluated, rfl⟩ := hresult confidences rfl
      refine Returns.ite (fun _ ↦ returns_pure.2 (.inl rfl)) fun _ ↦ ?_
      refine (returns_true _).bind fun τ₄ info _ ↦ returns_pure.2 ?_
      refine (optimize_measured hmeasured hnodup hlength _ sqrt lib eigen info _).imp id ?_
      rintro ⟨weights, hactions, htarget⟩
      exact ⟨weights, hactions, decided_of_isTarget hmeasured htarget List.mem_cons_self
        (List.mem_cons_of_mem _ (List.mem_append_right _ (List.mem_append_right _
          (List.mem_append_left _ hevaluated))))⟩

end Decision

def evenAnalysis : Analysis :=
  { Simulate.idleAnalysis with volatility := fun _ ↦ some 0 }

def twoQuoted : Simulate.World Unit :=
  let rate (token : String) (timestamp : Time) (rawRate : BigDecimal) : TokenRate :=
    ⟨⟨token⟩, wnearToken true, ⟨rawRate, 24⟩, timestamp, 0, none⟩
  { Simulate.marketWorld with
    db :=
      { Simulate.marketWorld.db with
        tokenRates := [rate "aurora" (7 * day) (10 ^ 24), rate "aurora" (8 * day) (2 * 10 ^ 24),
          rate "aurora" (9 * day) (10 ^ 24), rate "dai.near" (9 * day) (10 ^ 24)]
        predictionRecords :=
          [⟨1, "aurora", 2, 9 * day, 11 * day, none, none, none, 9 * day⟩] } }

def bothTokens : PortfolioStrategyParams :=
  ⟨[⟨"aurora"⟩, ⟨"dai.near"⟩], 100 * 10 ^ 24, true, "eval_1", 10 * day⟩

def bothQuoted : Program.Report Request Answer String (List TradingAction × ExpectedReturns)
    (Simulate.World Unit) :=
  (executePortfolioStrategy ⟨true, .lists, 10⟩ (evenAnalysis.exact (fun _ ↦ 1 / 2)
    Portfolio.rationalRoot Portfolio.eliminating ⟨fun _ ↦ 0, fun _ ↦ 1⟩) .given
    Simulate.simulationWallet bothTokens Simulate.simulationConfig).run
    (Simulate.answer ⟨wnearToken true, 0, 10 * day⟩ Simulate.twoDaysLater) twoQuoted

def rebalancedTo : Outcome String (List TradingAction × ExpectedReturns) →
    Option (SortedMap TokenAccount BigDecimal)
  | .ok ([.rebalance weights], _) => some weights
  | _ => none

theorem eq_of_rebalancedTo {o : Outcome String (List TradingAction × ExpectedReturns)}
    {weights : SortedMap TokenAccount BigDecimal} (h : rebalancedTo o = some weights) :
    ∃ returns, o = .ok ([.rebalance weights], returns) := by
  unfold rebalancedTo at h
  split at h
  · cases h
    exact ⟨_, rfl⟩
  · cases h

/-- All goes to the token with the prediction. -/
theorem executePortfolioStrategy_decided_bothQuoted :
    rebalancedTo bothQuoted.outcome = some (SortedMap.empty.insert ⟨"aurora"⟩ 1) ∧
      Decided evenAnalysis bothTokens Simulate.simulationConfig bothQuoted.trace
        (SortedMap.empty.insert ⟨"aurora"⟩ 1) := by
  have hweights : rebalancedTo bothQuoted.outcome =
      some (SortedMap.empty.insert ⟨"aurora"⟩ 1) := by decide +kernel
  obtain ⟨returns, houtcome⟩ := eq_of_rebalancedTo hweights
  have hdecided := executePortfolioStrategy_decided ⟨true, .lists, 10⟩ evenAnalysis .given
    Simulate.simulationWallet bothTokens Simulate.simulationConfig (fun _ ↦ 1 / 2)
    Portfolio.rationalRoot Portfolio.eliminating ⟨fun _ ↦ 0, fun _ ↦ 1⟩ (by decide) (by decide)
    bothQuoted.trace bothQuoted.outcome (runs_run _ _ twoQuoted).exec _ houtcome
  obtain hhold | ⟨weights, hactions, hdecided⟩ := hdecided
  · cases hhold
  · cases hactions
    exact ⟨hweights, hdecided⟩

end Zaciraci.Trade
