import Zaciraci.Path.Values
import Zaciraci.Trade.SpotRate
import Zaciraci.Trade.TokenCache

namespace Zaciraci.Trade

open Lib Dex Path Persistence TokenCache

/-- What a run of `record_rates` meets: the configuration, the clock, and what becomes of the
fetches of decimals. -/
structure RateRun where
  quoteToken : TokenAccount
  minPoolLiquidity : UInt32
  backoff : BackoffConfig
  now : Time
  stamp : TokenAccount → Time
  outcome : TokenAccount → Except String UInt8
  completion : (missing : List TokenAccount) →
    { fetched : List TokenAccount // fetched.Perm missing }

namespace RateRun

variable (run : RateRun)

/-- A tenth of the liquidity that pools must have, in NEAR. -/
def getInitialValue : ℕ := max (run.minPoolLiquidity.toNat / 10) 1

def initialYocto : U128 := .ofNat 128 (run.getInitialValue * yoctoPerNear)

def toRate (decimals : TokenAccount → Option UInt8) (entry : TokenAccount × U128 × TokenPath) :
    Option TokenRate :=
  (decimals entry.1).map fun d ↦
    recordRate BigDecimal.div run.quoteToken entry.1 d.toNat (run.stamp entry.1)
      run.getInitialValue entry.2.1.toNat (swapPathOf entry.2.2)

/-- The outer `Option` is `none` where the search for paths never returns. -/
def recordRates (std : Containers) (fuel : ℕ) (pools : PoolInfoList) (caches : Caches)
    (db : Database) : Option (Outcome (Failure TokenAccount) Database × Caches) := do
  match ← TokenGraph.updateGraph std fuel (.new std pools) run.quoteToken with
  | (.error e, _) => some (.err e, caches)
  | (.ok goals, tokens) =>
    match tokens.listValuesWithPath run.initialYocto run.quoteToken goals with
    | .panicked m => some (.panicked m, caches)
    | .err e => some (.err e, caches)
    | .ok values =>
      let tokenIds := values.map Prod.fst
      let (decimals, caches) := (caches.cleanupStaleFailures tokenIds).ensureDecimalsCached
        run.backoff run.now ⟨tokenIds, run.outcome, run.completion⟩
      some (.ok { db with tokenRates := db.tokenRates ++ values.filterMap (run.toRate decimals) },
        caches)

end RateRun

namespace TokenCache.Caches

variable (cfg : BackoffConfig) (now : Time) (outcome : TokenAccount → Except String UInt8)
  (c : Caches) (token : TokenAccount)

def mayFetch : Bool :=
  match c.failures token with
  | some record => record.shouldRetry now cfg
  | none => true

def decimalsOf : Option UInt8 :=
  (c.decimals token).or (if c.mayFetch cfg now token then (outcome token).toOption else none)

variable {cfg now outcome c token}

theorem result_of_mem {fetched : List TokenAccount} (h : token ∈ fetched)
    (result : TokenAccount → Option UInt8) :
    fetched.foldl (fun result token ↦
      match outcome token with
      | .ok d => Function.update result token (some d)
      | .error _ => result) result token = (outcome token).toOption.or (result token) := by
  induction fetched generalizing result with
  | nil => cases h
  | cons token' fetched ih =>
    rw [List.foldl_cons]
    by_cases hmem : token ∈ fetched
    · rw [ih hmem]
      cases houtcome : outcome token with
      | ok d => rfl
      | error e =>
        cases houtcome' : outcome token' with
        | ok d =>
          have hne : token ≠ token' := by
            rintro rfl
            rw [houtcome] at houtcome'
            cases houtcome'
          simp [Function.update_of_ne hne]
        | error e => rfl
    · obtain rfl := (List.mem_cons.1 h).resolve_right hmem
      refine (result_foldl _ hmem _).trans ?_
      cases outcome token with
      | ok d => exact Function.update_self ..
      | error e => rfl

theorem mayFetch_iff : c.mayFetch cfg now token = true ↔
    ∀ record, c.failures token = some record → record.shouldRetry now cfg := by
  rw [mayFetch]
  cases c.failures token <;> simp

theorem ensure_result {call : EnsureCall} (hmem : token ∈ call.tokenIds) :
    (c.ensureDecimalsCached cfg now call).1 token = c.decimalsOf cfg now call.outcome token := by
  have hcached : (if call.tokenIds.contains token then c.decimals token else none) =
      c.decimals token := if_pos (List.contains_iff_mem.2 hmem)
  have hfetched := (call.completion (c.toFetch cfg now call.tokenIds)).2.mem_iff (a := token)
  rw [mem_toFetch, ← mayFetch_iff] at hfetched
  rw [decimalsOf]
  by_cases hfetch : token ∈ (call.completion (c.toFetch cfg now call.tokenIds)).1
  · obtain ⟨-, hnone, hmay⟩ := hfetched.1 hfetch
    refine (result_of_mem hfetch _).trans ?_
    rw [hcached, hnone, hmay, Option.or_none]
    rfl
  · refine (result_foldl _ hfetch _).trans ?_
    rw [hcached]
    cases hknown : c.decimals token with
    | some d => rfl
    | none =>
      have hmay : c.mayFetch cfg now token = false := by
        rw [← Bool.not_eq_true]
        exact fun hmay ↦ hfetch (hfetched.2 ⟨hmem, hknown, hmay⟩)
      rw [hmay]
      rfl

theorem decimalsOf_cleanup {tokenIds : List TokenAccount} (hmem : token ∈ tokenIds) :
    (c.cleanupStaleFailures tokenIds).decimalsOf cfg now outcome token =
      c.decimalsOf cfg now outcome token := by
  have hfailures : (c.cleanupStaleFailures tokenIds).failures token = c.failures token :=
    if_pos (List.contains_iff_mem.2 hmem)
  rw [decimalsOf, decimalsOf, mayFetch, mayFetch, hfailures]
  rfl

end TokenCache.Caches

section Hops

variable {pools : PoolInfoList}

theorem quotes_of_filled {pair : TokenPair} (h : TokenGraph.Filled pools pair)
    (hfee : ∀ pool ∈ pools.list, pool.totalFee.toNat < 10000) : ∃ hop, Quotes pair hop := by
  obtain ⟨x, y, hx, hy, hx₀, hy₀⟩ := h.reserves
  have hlt : (pair.pool.totalFee.toNat : ℚ) / 10000 < 1 := by
    rw [div_lt_one (by norm_num)]
    exact_mod_cast hfee _ h.listed
  refine ⟨⟨x.toNat, y.toNat, pair.pool.totalFee.toNat / 10000, by exact_mod_cast hx₀,
    by exact_mod_cast hy₀, by positivity, hlt⟩, h.ne, x, y, ?_, ?_, rfl, rfl, rfl⟩
  · exact PoolInfo.amount_ok.2 hx
  · exact PoolInfo.amount_ok.2 hy

theorem exists_hops {path : TokenPath} (h : ∀ pair ∈ path, TokenGraph.Filled pools pair)
    (hfee : ∀ pool ∈ pools.list, pool.totalFee.toNat < 10000) :
    ∃ hops, List.Forall₂ Quotes path hops := by
  induction path with
  | nil => exact ⟨[], .nil⟩
  | cons pair path ih =>
    obtain ⟨hpair, hpath⟩ := List.forall_mem_cons.1 h
    obtain ⟨hop, hhop⟩ := quotes_of_filled hpair hfee
    obtain ⟨hops, hhops⟩ := ih hpath
    exact ⟨hop :: hops, .cons hhop hhops⟩

end Hops

namespace RateRun

variable {run : RateRun}

theorem initialYocto_toNat : run.initialYocto.toNat = run.getInitialValue * yoctoPerNear := by
  have hmin : run.minPoolLiquidity.toNat < 2 ^ 32 := run.minPoolLiquidity.toNat_lt
  have hle : run.getInitialValue ≤ 2 ^ 32 := by
    rw [getInitialValue]
    omega
  rw [initialYocto, BitVec.toNat_ofNat, Nat.mod_eq_of_lt]
  calc run.getInitialValue * yoctoPerNear ≤ 2 ^ 32 * yoctoPerNear := Nat.mul_le_mul_right _ hle
    _ < 2 ^ 128 := by norm_num [yoctoPerNear]

/-- A row of `record_rates`: what the constant product formula gives, rounded down at every hop,
along a path that leads from the quote token to the token and does not come back to it. All hops
are recorded with it. -/
def IsRate (run : RateRun) (decimals : TokenAccount → Option UInt8) (rate : TokenRate) : Prop :=
  ∃ d tokens path hops, decimals rate.base = some d ∧
    run.quoteToken ∉ tokens ++ [rate.base] ∧
    TokenPath.Along run.quoteToken (tokens ++ [rate.base]) path ∧ List.Forall₂ Quotes path hops ∧
    rate = recordRate BigDecimal.div run.quoteToken rate.base d.toNat (run.stamp rate.base)
      run.getInitialValue
      (Hop.outputs (fun q ↦ ⌊q⌋) hops (run.getInitialValue * yoctoPerNear)) (hops.map Hop.pool)

theorem map_base_filterMap (decimals : TokenAccount → Option UInt8)
    (values : List (TokenAccount × U128 × TokenPath)) :
    (values.filterMap (run.toRate decimals)).map TokenRate.base =
      (values.map Prod.fst).filter fun token ↦ (decimals token).isSome := by
  induction values with
  | nil => rfl
  | cons entry values ih =>
    rw [List.map_cons, List.filterMap_cons, toRate]
    cases hd : decimals entry.1 with
    | none => simpa [hd] using ih
    | some d => simpa [hd, recordRate] using ih

theorem filterMap_ensure (caches : Caches) (values : List (TokenAccount × U128 × TokenPath)) :
    values.filterMap (run.toRate ((caches.cleanupStaleFailures
      (values.map Prod.fst)).ensureDecimalsCached run.backoff run.now
        ⟨values.map Prod.fst, run.outcome, run.completion⟩).1) =
      values.filterMap (run.toRate (caches.decimalsOf run.backoff run.now run.outcome)) := by
  apply List.filterMap_congr
  intro entry hentry
  have hmem : entry.1 ∈ values.map Prod.fst := List.mem_map_of_mem hentry
  rw [toRate, toRate, Caches.ensure_result hmem, Caches.decimalsOf_cleanup hmem]

section Run

open TokenGraph

variable {std : Containers} {pools : PoolInfoList}

theorem isRate_of_toRate {fuel : ℕ}
    {r : Except (Failure TokenAccount) (List TokenAccount)} {tokens : TokenGraph}
    {decimals : TokenAccount → Option UInt8} {entry : TokenAccount × U128 × TokenPath}
    {rate : TokenRate} (hpools : pools.Consistent)
    (hfee : ∀ pool ∈ pools.list, pool.totalFee.toNat < 10000)
    (hupdate : updateGraph std fuel (new std pools) run.quoteToken = some (r, tokens))
    (hentry : ValueAlong tokens run.initialYocto run.quoteToken entry)
    (hfilled : ∀ pair ∈ entry.2.2, Filled pools pair)
    (h : run.toRate decimals entry = some rate) : run.IsRate decimals rate := by
  obtain ⟨d, hd, rfl⟩ := Option.map_eq_some_iff.1 h
  obtain ⟨q, hstart, halong⟩ := getPath_fresh hpools hupdate hentry.1
  obtain ⟨hops, hhops⟩ := exists_hops hfilled hfee
  refine ⟨d, q, entry.2.2, hops, hd, hstart, halong, hhops, ?_⟩
  have hvalue := calcValue_eq_outputs hhops hentry.2
  rw [initialYocto_toNat] at hvalue
  rw [hvalue, swapPathOf_eq hhops]
  push_cast
  rfl

theorem exists_values (hpools : pools.Consistent) (hpos : PositiveRates (tokenGraph std pools))
    (hquote : run.quoteToken ∈ (tokenGraph std pools).nodes)
    {fuel : ℕ} {r : Except (Failure TokenAccount) (List TokenAccount)} {tokens : TokenGraph}
    (hupdate : updateGraph std fuel (new std pools) run.quoteToken = some (r, tokens)) :
    ∃ goals values, r = .ok goals ∧
      tokens.listValuesWithPath run.initialYocto run.quoteToken goals = .ok values ∧
      (values.map Prod.fst).Nodup ∧
      (∀ token, token ∈ values.map Prod.fst ↔
        token ≠ run.quoteToken ∧ (tokenGraph std pools).Reaches run.quoteToken token) ∧
      ∀ entry ∈ values, ValueAlong tokens run.initialYocto run.quoteToken entry ∧
        ∀ pair ∈ entry.2.2, Filled pools pair := by
  obtain ⟨goals, rfl, hnodup, hgoals, hpaths⟩ := goals_of_updateGraph hpools hpos hquote hupdate
  have hlisted : ∀ g ∈ goals, ∃ value path,
      ValueAlong tokens run.initialYocto run.quoteToken (g, value, path) := by
    intro g hg
    obtain ⟨path, hpath, hfilled⟩ := hpaths g hg
    obtain ⟨value, hvalue⟩ := exists_calcValue hfilled run.initialYocto
    exact ⟨value, path, hpath, hvalue⟩
  obtain ⟨values, hvalues, hperm, hall⟩ := listValuesWithPath_spec hlisted
  refine ⟨goals, values, rfl, hvalues, hperm.nodup_iff.2 hnodup, ?_, fun entry hentry ↦ ?_⟩
  · intro token
    rw [hperm.mem_iff, hgoals]
  · have hgoal : entry.1 ∈ goals := hperm.mem_iff.1 (List.mem_map_of_mem hentry)
    obtain ⟨path, hpath, hfilled⟩ := hpaths entry.1 hgoal
    obtain rfl := Except.ok.inj (Option.some.inj ((hall entry hentry).1.symm.trans hpath))
    exact ⟨hall entry hentry, hfilled⟩

theorem recordRates_eq {fuel : ℕ} {goals : List TokenAccount} {tokens : TokenGraph}
    {values : List (TokenAccount × U128 × TokenPath)}
    (hupdate : updateGraph std fuel (new std pools) run.quoteToken = some (.ok goals, tokens))
    (hvalues : tokens.listValuesWithPath run.initialYocto run.quoteToken goals = .ok values)
    (caches : Caches) (db : Database) :
    let rates := values.filterMap
      (run.toRate (caches.decimalsOf run.backoff run.now run.outcome))
    ∃ caches', run.recordRates std fuel pools caches db =
      some (.ok { db with tokenRates := db.tokenRates ++ rates }, caches') := by
  simp only [recordRates, hupdate, hvalues, Option.bind_eq_bind, Option.bind_some]
  rw [filterMap_ensure]
  exact ⟨_, rfl⟩

/-- Where no cycle of rates multiplies to one, `record_rates` returns, and it adds one rate for
every token that the pools connect to the quote token and whose decimals are known. -/
theorem recordRates_rows (run : RateRun) (std : Containers) (pools : PoolInfoList)
    (caches : Caches) (db : Database) (hpools : pools.Consistent)
    (hfee : ∀ pool ∈ pools.list, pool.totalFee.toNat < 10000)
    (hpos : PositiveRates (tokenGraph std pools))
    (hquote : run.quoteToken ∈ (tokenGraph std pools).nodes)
    (hcycle : ∀ v tokens, (tokenGraph std pools).Reaches run.quoteToken v →
      ¬UnitCycle (tokenGraph std pools) v tokens) :
    ∃ enough, ∀ fuel ≥ enough, ∃ rates caches',
      run.recordRates std fuel pools caches db =
        some (.ok { db with tokenRates := db.tokenRates ++ rates }, caches') ∧
      (rates.map TokenRate.base).Nodup ∧
      (∀ token, token ∈ rates.map TokenRate.base ↔ (token ≠ run.quoteToken ∧
        (tokenGraph std pools).Reaches run.quoteToken token) ∧
        (caches.decimalsOf run.backoff run.now run.outcome token).isSome) ∧
      ∀ rate ∈ rates, run.IsRate (caches.decimalsOf run.backoff run.now run.outcome) rate := by
  obtain ⟨enough, hreturns⟩ := updateGraph_returns_of_no_unitCycle hquote hcycle
  refine ⟨enough, fun fuel hfuel ↦ ?_⟩
  obtain ⟨⟨r, tokens⟩, hupdate⟩ := hreturns fuel hfuel
  obtain ⟨goals, values, rfl, hvalues, hnodup, hmem, hall⟩ :=
    exists_values hpools hpos hquote hupdate
  obtain ⟨caches', heq⟩ := recordRates_eq hupdate hvalues caches db
  refine ⟨_, caches', heq, ?_, ?_, ?_⟩
  · rw [map_base_filterMap]
    exact hnodup.filter _
  · intro token
    rw [map_base_filterMap, List.mem_filter, hmem]
  · intro rate hrate
    obtain ⟨entry, hentry, heq⟩ := List.mem_filterMap.1 hrate
    exact isRate_of_toRate hpools hfee hupdate (hall entry hentry).1 (hall entry hentry).2 heq

end Run

def chainRun : RateRun where
  quoteToken := ⟨"a"⟩
  minPoolLiquidity := 3000
  backoff := fiveMinutes
  now := 0
  stamp := fun _ ↦ 0
  outcome := fun token ↦ if token = ⟨"c"⟩ then .error "not found" else .ok 24
  completion := fun missing ↦ ⟨missing, .refl _⟩

theorem recordRates_rows_chain : ∃ enough, ∀ fuel ≥ enough, ∃ rates caches',
    chainRun.recordRates .lists fuel TokenGraph.chainPools .empty ⟨[], [], [], [], [], []⟩ =
      some (.ok ⟨[], rates, [], [], [], []⟩, caches') ∧
    (rates.map TokenRate.base).Nodup ∧ ⟨"c"⟩ ∉ rates.map TokenRate.base := by
  let price : TokenAccount → ℚ := fun t ↦ if t = ⟨"b"⟩ then 1 else if t = ⟨"a"⟩ then 3 else 4
  have hloss : ∀ e ∈ (TokenGraph.tokenGraph .lists TokenGraph.chainPools).edges,
      |e.weight.estimatedRate| * price e.target < price e.source := by decide +kernel
  obtain ⟨enough, h⟩ := recordRates_rows chainRun .lists TokenGraph.chainPools .empty
    ⟨[], [], [], [], [], []⟩ (PoolInfoList.consistent_new (by decide)) (by decide +kernel)
    (by decide +kernel) (by decide +kernel)
    fun v tokens _ ↦ TokenGraph.not_unitCycle_of_prices price hloss v tokens
  refine ⟨enough, fun fuel hfuel ↦ ?_⟩
  obtain ⟨rates, caches', heq, hnodup, hmem, -⟩ := h fuel hfuel
  refine ⟨rates, caches', heq, hnodup, fun hc ↦ ?_⟩
  have hdecimals := ((hmem _).1 hc).2
  exact absurd hdecimals (by decide)

end RateRun

end Zaciraci.Trade
