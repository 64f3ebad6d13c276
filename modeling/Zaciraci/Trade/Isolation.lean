import Zaciraci.Simulate.LookAhead

namespace Zaciraci.Trade

open Lib Persistence Storage

/-- What surrounds a cycle. The database answers its queries or fails, a new wallet is that of
the start-up configuration, and clients and clocks may answer anything. -/
def surroundings (startup : Option Wallet) : Program.Environment Request Answer Database
  | .db q, db, a, db' => db.answer q = (a, db') ∨ (∃ e, a = .error e) ∧ db' = db
  | .newWallet, db, a, db' => a = startup ∧ db' = db
  | _, db, _, db' => db' = db

/-- A transaction or transfer is sent through the given client and signed by the wallet. -/
def Request.Isolated (wallet : Wallet) (q : Request) : Prop :=
  ∀ client account, q.sender = some (client, account) →
    client = .given ∧ account = wallet.accountId

structure CanHarvest (cfg : ConfigAccess) (startup : Option Wallet)
    (initialValue currentValue : BigDecimal) : Prop where
  initial_ne : initialValue ≠ 0
  exceeds : initialValue * 2 < currentValue
  target : ∃ account, parseAccountId (harvestAccountId cfg) = .ok account
  amount : (nearToYocto cfg.harvestMinAmount : BigDecimal) ≤
    harvestAmountOf initialValue currentValue
  interval : cfg.harvestIntervalSeconds.toNat < 2 ^ 64 - 1
  wallet : startup ≠ none

/-- Wrapped NEAR would be sent to the harvest account when trading stops. -/
def CanUnwrap (cfg : ConfigAccess) (startup : Option Wallet) : Prop :=
  ∃ id target wallet, cfg.harvestAccountId = .ok id ∧ parseAccountId id = .ok target ∧
    startup = some wallet ∧ target ≠ wallet.accountId

def maxBalance : BigDecimal := (u128Bound - 1 : ℕ)

section Within

open Program Request

variable {startup : Option Wallet} {wallet : Wallet} {db : Database} {setting : Setting}
  {cfg : ConfigAccess} {α β : Type}

theorem surroundings_total (startup : Option Wallet) (q : Request) (db : Database) :
    ∃ a db', surroundings startup q db a db' := by
  cases q with
  | chain client q => cases q <;> first
    | exact ⟨.error "", db, rfl⟩
    | exact ⟨.refused "", db, rfl⟩
  | db q => exact ⟨(db.answer q).1, (db.answer q).2, .inl rfl⟩
  | utcNow => exact ⟨(0 : ℤ), db, rfl⟩
  | unixSeconds => exact ⟨(0 : UInt64), db, rfl⟩
  | newUuid => exact ⟨"", db, rfl⟩
  | lastHarvest clock => exact ⟨(0 : UInt64), db, rfl⟩
  | setLastHarvest clock seconds => exact ⟨(), db, rfl⟩
  | newWallet => exact ⟨startup, db, rfl, rfl⟩
  | newPredictionService => exact ⟨.ok (), db, rfl⟩
  | cachedDecimals token => exact ⟨none, db, rfl⟩
  | cacheDecimals token decimals => exact ⟨(), db, rfl⟩

theorem isolated_of_confined {now : Time} {wnear : TokenAccount} {q : Request}
    (h : Confined .given wallet now wnear q) : q.Isolated wallet := by
  rintro client account hsender
  cases q with
  | chain c q =>
    cases q with
    | exec tx =>
      cases hsender
      exact h.1
    | transferNativeToken signer receiver amount =>
      cases hsender
      exact h.1
    | _ => cases hsender
  | _ => cases hsender

theorem isolated_of_uses (now : Time) (wnear : TokenAccount) {p : TradeProgram α}
    (h : p.Uses (Confined .given wallet now wnear)) : p.Uses (Isolated wallet) :=
  h.mono fun _ hq ↦ isolated_of_confined hq

theorem within_latestPeriod {f : Option EvaluationPeriod → TradeProgram α} :
    Within (surroundings startup) (Isolated wallet) (query .latestPeriod >>= f) db ↔
      Within (surroundings startup) (Isolated wallet) (f db.getLatestPeriod) db := by
  change Within _ _ (.ask (Request.db .latestPeriod) fun a ↦ (Program.ofExcept a).bind f) db ↔ _
  rw [within_ask (surroundings_total startup)]
  constructor
  · rintro ⟨-, h⟩
    exact h (.ok db.getLatestPeriod) db (.inl rfl)
  · intro h
    refine ⟨nofun, ?_⟩
    rintro a db' (⟨⟨⟩⟩ | ⟨⟨e, rfl⟩, -⟩)
    · exact h
    · exact Uses.within trivial

theorem within_newWallet {f : Wallet → TradeProgram α} :
    Within (surroundings startup) (Isolated wallet) (newWallet >>= f) db ↔
      ∀ created, startup = some created →
        Within (surroundings startup) (Isolated wallet) (f created) db := by
  rw [newWallet]
  change Within _ _ (.ask Request.newWallet fun a ↦ _) db ↔ _
  rw [within_ask (surroundings_total startup)]
  constructor
  · rintro ⟨-, h⟩ created rfl
    exact h (some created) db ⟨rfl, rfl⟩
  · intro h
    refine ⟨nofun, ?_⟩
    rintro a db' ⟨rfl, rfl⟩
    cases a with
    | none => exact Uses.within trivial
    | some created => exact h created rfl

theorem within_isTimeToHarvest {clock : HarvestClock} {f : Bool → TradeProgram α} :
    Within (surroundings startup) (Isolated wallet) (isTimeToHarvest clock cfg >>= f) db ↔
      Within (surroundings startup) (Isolated wallet) (f false) db ∧
      (cfg.harvestIntervalSeconds.toNat < 2 ^ 64 - 1 →
        Within (surroundings startup) (Isolated wallet) (f true) db) := by
  change Within _ _ (.ask (Request.lastHarvest clock) fun last ↦ .ask Request.unixSeconds fun now ↦
    f (decide (cfg.harvestIntervalSeconds < now - last))) db ↔ _
  simp only [within_ask (surroundings_total startup), surroundings]
  constructor
  · rintro ⟨-, h⟩
    refine ⟨?_, fun hinterval ↦ ?_⟩
    · have hnever := (h (0 : UInt64) db rfl).2 (0 : UInt64) db rfl
      rwa [decide_eq_false (by simp [UInt64.lt_iff_toNat_lt])] at hnever
    · have hlate := (h (0 : UInt64) db rfl).2 (UInt64.ofNat (2 ^ 64 - 1)) db rfl
      rwa [decide_eq_true (by simpa [UInt64.lt_iff_toNat_lt] using hinterval)] at hlate
  · rintro ⟨hearly, hlate⟩
    refine ⟨nofun, ?_⟩
    rintro last _ rfl
    refine ⟨nofun, ?_⟩
    rintro now _ rfl
    by_cases hdue : cfg.harvestIntervalSeconds < now - last
    · have hbound := (now - last).toNat_lt
      have hlt := UInt64.lt_iff_toNat_lt.mp hdue
      rw [decide_eq_true hdue]
      exact hlate (by omega)
    · rwa [decide_eq_false hdue]

theorem not_within_withdraw {created : Wallet} {token : TokenAccount} {amount : ℕ}
    {label : String} {f : Unit → TradeProgram α} :
    ¬ Within (surroundings startup) (Isolated wallet)
      (withdraw .standard created token amount label >>= f) db := by
  change ¬ Within _ _ (.ask (Request.chain .standard (.exec _)) _) db
  rw [within_ask (surroundings_total startup)]
  rintro ⟨hsent, -⟩
  cases (hsent .standard created.signer rfl).1

theorem within_executeHarvestTransfer {target : AccountId} {amount : BigDecimal}
    {periodId : String} :
    Within (surroundings startup) (Isolated wallet)
      (executeHarvestTransfer setting target amount periodId cfg) db ↔ startup = none := by
  rw [executeHarvestTransfer, within_newWallet]
  cases startup with
  | none => simp
  | some created =>
    simp only [reduceCtorEq, iff_false]
    exact fun h ↦ not_within_withdraw (h created rfl)

theorem within_harvestAccount {f : AccountId → TradeProgram α} :
    Within (surroundings startup) (Isolated wallet) (harvestAccount cfg >>= f) db ↔
      ∀ account, parseAccountId (harvestAccountId cfg) = .ok account →
        Within (surroundings startup) (Isolated wallet) (f account) db := by
  rw [harvestAccount, parseHarvestAccount]
  cases parseAccountId (harvestAccountId cfg) with
  | ok account => simp
  | error e => exact iff_of_true (Uses.within trivial) (by simp)

theorem within_checkAndExecuteHarvest {initial current : BigDecimal} {periodId : String} :
    Within (surroundings startup) (Isolated wallet)
      (checkAndExecuteHarvest setting initial current periodId cfg) db ↔
      ¬ CanHarvest cfg startup initial current := by
  rw [checkAndExecuteHarvest]
  by_cases hinitial : initial = 0
  · rw [if_pos hinitial]
    exact iff_of_true (Uses.within trivial) fun h ↦ h.initial_ne hinitial
  rw [if_neg hinitial]
  by_cases hexceeds : initial * 2 < current
  swap
  · rw [if_neg hexceeds]
    exact iff_of_true (Uses.within trivial) fun h ↦ hexceeds h.exceeds
  rw [if_pos hexceeds, within_harvestAccount]
  by_cases hmin : harvestAmountOf initial current < nearToYocto cfg.harvestMinAmount
  · refine iff_of_true (fun account _ ↦ ?_) fun h ↦ absurd h.amount (not_le.mpr hmin)
    rw [if_pos hmin]
    exact Uses.within trivial
  have hsends (account : AccountId) :
      Within (surroundings startup) (Isolated wallet) (do
        executeHarvestTransfer setting account (harvestAmountOf initial current) periodId cfg
        updateLastHarvest .trade
        pure (harvestAmountOf initial current)) db ↔ startup = none := by
    rw [within_bind_of_uses (surroundings_total startup), within_executeHarvestTransfer]
    exact fun _ ↦ isolated_of_uses 0 setting.wnear
      ((confined_of_trading uses_updateLastHarvest).bind fun _ ↦ trivial)
  simp only [if_neg hmin, within_isTimeToHarvest]
  constructor
  · rintro h ⟨-, -, ⟨account, htarget⟩, -, hinterval, hwallet⟩
    exact hwallet ((hsends account).mp ((h account htarget).2 hinterval))
  · intro h account htarget
    refine ⟨Uses.within trivial, fun hinterval ↦ (hsends account).mpr ?_⟩
    by_contra hwallet
    exact h ⟨hinitial, hexceeds, ⟨account, htarget⟩, not_lt.mp hmin, hinterval, hwallet⟩

theorem CanHarvest.mono {initial current current' : BigDecimal}
    (h : CanHarvest cfg startup initial current) (hle : current ≤ current') :
    CanHarvest cfg startup initial current' := by
  refine ⟨h.initial_ne, h.exceeds.trans_le hle, h.target, h.amount.trans ?_, h.interval, h.wallet⟩
  simp only [harvestAmountOf]
  linarith

theorem not_within_transferOut {created : Wallet} {target : AccountId} :
    ¬ Within (surroundings startup) (Isolated wallet)
      (transferOut setting created target cfg) db := by
  let deposits : SortedMap TokenAccount U128 := SortedMap.empty.insert setting.wnear 1
  have hdeposit : depositOf deposits setting.wnear = 1 := by
    rw [depositOf, SortedMap.get_insert_self]
    rfl
  rw [transferOut, within_bind (surroundings_total startup)]
  rintro ⟨-, h⟩
  have hrun : Runs (surroundings startup) (getDeposits .standard created.accountId) db
      [⟨.chain .standard (.getDeposits created.accountId), .ok deposits⟩] (.ok deposits) db :=
    .ask rfl (.done _ _)
  have hsends := h _ _ _ hrun
  rw [hdeposit] at hsends
  exact not_within_withdraw hsends

theorem within_unwrapAndTransferWnear :
    Within (surroundings startup) (Isolated wallet) (unwrapAndTransferWnear setting cfg) db ↔
      ¬ CanUnwrap cfg startup := by
  rw [unwrapAndTransferWnear]
  cases hid : cfg.harvestAccountId with
  | error e =>
    refine iff_of_true (Uses.within trivial) ?_
    rintro ⟨id, -, -, h, -⟩
    cases hid.symm.trans h
  | ok id =>
    have hcan : CanUnwrap cfg startup ↔ ∃ target created, parseAccountId id = .ok target ∧
        startup = some created ∧ target ≠ created.accountId := by
      simp [CanUnwrap, hid]
    rw [hcan]
    by_cases hempty : id = ""
    · subst hempty
      exact iff_of_true (Uses.within trivial) (by rintro ⟨target, -, h, -⟩; cases h)
    simp only [if_neg hempty]
    cases htarget : parseAccountId id with
    | error e => exact iff_of_true (Uses.within trivial) (by rintro ⟨target, -, h, -⟩; cases h)
    | ok target =>
      simp only [within_newWallet]
      constructor
      · rintro h ⟨_, created, ⟨⟩, hstartup, hne⟩
        have hsends := h created hstartup
        rw [if_neg hne] at hsends
        exact not_within_transferOut hsends
      · intro h created hstartup
        by_cases heq : target = created.accountId
        · rw [if_pos heq]
          exact Uses.within trivial
        · exact absurd ⟨target, created, rfl, hstartup, heq⟩ h

theorem filterTokensToLiquidate_wnear (wnear : TokenAccount) (balance : U128) :
    filterTokensToLiquidate (SortedMap.empty.insert wnear balance) wnear = [] := by
  have hentries : (SortedMap.empty.insert wnear balance).entries = [(wnear, balance)] := rfl
  simp [filterTokensToLiquidate, hentries]

theorem within_after_liquidation {client : Client} {period : EvaluationPeriod}
    {f : LiquidationResult → TradeProgram α} (hlatest : db.getLatestPeriod = some period)
    (h : Within (surroundings startup) (Isolated wallet)
      (liquidateAllPositions setting client wallet cfg >>= f) db) (balance : U128) :
    Within (surroundings startup) (Isolated wallet) (f ⟨balance, []⟩) db := by
  let deposits : SortedMap TokenAccount U128 := SortedMap.empty.insert setting.wnear balance
  have hquery : Runs (surroundings startup) (query .latestPeriod) db
      [⟨.db .latestPeriod, .ok (some period)⟩] (.ok (some period)) db :=
    .ask (.inl (by rw [Database.answer, hlatest])) (.done _ _)
  have hdeposits : Runs (surroundings startup) (getDeposits client wallet.accountId) db
      [⟨.chain client (.getDeposits wallet.accountId), .ok deposits⟩] (.ok deposits) db :=
    .ask rfl (.done _ _)
  refine ((within_bind (surroundings_total startup)).mp h).2 (_ ++ (_ ++ [])) _ _
    (hquery.bind (hdeposits.bind ?_))
  simp only [deposits, filterTokensToLiquidate_wnear]
  rw [depositOf, SortedMap.get_insert_self]
  exact .done _ _

theorem within_after_harvest {initial current : BigDecimal} {periodId : String}
    {account : AccountId} {f : Except String BigDecimal → TradeProgram α}
    (htarget : parseAccountId (harvestAccountId cfg) = .ok account)
    (h : Within (surroundings startup) (Isolated wallet)
      ((checkAndExecuteHarvest setting initial current periodId cfg).attempt >>= f) db) :
    Within (surroundings startup) (Isolated wallet) (f (.ok 0)) db := by
  have hearly : Runs (surroundings startup) (isTimeToHarvest .trade cfg) db
      [⟨.lastHarvest .trade, (0 : UInt64)⟩, ⟨.unixSeconds, (0 : UInt64)⟩] (.ok false) db := by
    refine .ask rfl (.ask rfl ?_)
    change Runs _ (.done (.ok (decide (cfg.harvestIntervalSeconds < 0 - 0)))) db _ _ db
    rw [decide_eq_false (by simp [UInt64.lt_iff_toNat_lt])]
    exact .done _ _
  have hrun : ∃ τ, Runs (surroundings startup)
      (checkAndExecuteHarvest setting initial current periodId cfg) db τ (.ok 0) db := by
    rw [checkAndExecuteHarvest, harvestAccount, parseHarvestAccount, htarget, pure_bind]
    split_ifs
    · exact ⟨_, .done _ _⟩
    · exact ⟨_, .done _ _⟩
    · exact ⟨_, hearly.bind (.done _ _)⟩
    · exact ⟨_, .done _ _⟩
  obtain ⟨τ, hrun⟩ := hrun
  exact ((within_bind (surroundings_total startup)).mp h).2 τ _ db hrun.attempt_ok

theorem toNat_le_maxBalance (balance : U128) : (balance.toNat : BigDecimal) ≤ maxBalance := by
  have hlt := balance.isLt
  rw [maxBalance]
  exact_mod_cast Nat.le_sub_one_of_lt hlt

/-- What a period that is over may do outside the client and the wallet. -/
def CanLeak (cfg : ConfigAccess) (startup : Option Wallet) (period : EvaluationPeriod) : Prop :=
  CanHarvest cfg startup period.initialValue maxBalance ∨
    cfg.tradeEnabled = false ∧ cfg.tradeUnwrapOnStop = true ∧ CanUnwrap cfg startup

theorem within_nextPeriod {failed : List TokenAccount} {balance : ℕ} :
    Within (surroundings startup) (Isolated wallet) (nextPeriod setting cfg failed balance) db ↔
      ¬ (cfg.tradeEnabled = false ∧ cfg.tradeUnwrapOnStop = true ∧ CanUnwrap cfg startup) := by
  have htotal := surroundings_total startup
  rw [nextPeriod]
  cases cfg.tradeEnabled with
  | true =>
    refine iff_of_true (Uses.within ?_) (by simp)
    exact isolated_of_uses 0 setting.wnear (uses_createPeriod.bind fun _ ↦ trivial)
  | false =>
    simp only [Bool.false_eq_true, if_false, true_and]
    rw [within_bind_of_uses htotal (by exact fun _ ↦ trivial), when]
    cases cfg.tradeUnwrapOnStop with
    | false => exact iff_of_true (Uses.within trivial) (by simp)
    | true =>
      simp only [if_true, true_and]
      rw [within_bind_of_uses htotal (by exact fun _ ↦ trivial), within_attempt,
        within_unwrapAndTransferWnear]

/-- The client decides the balance that the harvest is judged by, so that of all balances the
largest matters. -/
theorem within_endPeriod {period : EvaluationPeriod}
    (hlatest : db.getLatestPeriod = some period) :
    Within (surroundings startup) (Isolated wallet)
      (endPeriod setting .given wallet cfg period) db ↔ ¬ CanLeak cfg startup period := by
  have htotal := surroundings_total startup
  rw [CanLeak, not_or]
  constructor
  · intro h
    constructor
    · have hlargest := within_after_liquidation hlatest h (BitVec.allOnes 128)
      have hharvest := ((within_bind htotal).mp hlargest).1
      rwa [within_attempt, within_checkAndExecuteHarvest] at hharvest
    · rintro ⟨hdisabled, hstop, hunwrap⟩
      obtain ⟨id, target, created, hid, htarget, hcreated, hne⟩ := hunwrap
      have hvalue : parseAccountId (harvestAccountId cfg) = .ok target := by
        rw [harvestAccountId, hid, htarget]
      have hempty := within_after_liquidation hlatest h 0
      have hnext := within_after_harvest hvalue hempty
      exact within_nextPeriod.mp hnext
        ⟨hdisabled, hstop, id, target, created, hid, htarget, hcreated, hne⟩
  · rintro ⟨hharvest, hunwrap⟩
    rw [endPeriod, within_bind htotal]
    constructor
    · apply Uses.within
      exact isolated_of_uses 0 setting.wnear (confined_of_trading uses_liquidateAllPositions)
    intro τ liquidation db' _
    rw [within_bind htotal, within_attempt, within_checkAndExecuteHarvest]
    refine ⟨fun h ↦ hharvest (h.mono (toNat_le_maxBalance _)), fun τ' harvested db'' _ ↦ ?_⟩
    rw [within_bind htotal]
    refine ⟨?_, fun _ _ _ _ ↦ within_nextPeriod.mpr hunwrap⟩
    exact (isolated_of_uses 0 setting.wnear (confined_of_trading uses_postHarvestBalance)).within

theorem within_manageEvaluationPeriod {now : Time} {funds : ℕ} :
    Within (surroundings startup) (Isolated wallet)
      (manageEvaluationPeriod setting .given wallet now funds cfg) db ↔
      ∀ period, db.getLatestPeriod = some period → HasEnded cfg now period →
        ¬ CanLeak cfg startup period := by
  rw [manageEvaluationPeriod, within_latestPeriod]
  cases hlatest : db.getLatestPeriod with
  | none =>
    refine iff_of_true (Uses.within ?_) (by simp)
    exact isolated_of_uses 0 setting.wnear (uses_createPeriod.bind fun _ ↦ trivial)
  | some period =>
    simp only [Option.some.injEq, forall_eq']
    split_ifs with hended
    · simp [within_endPeriod hlatest, hended]
    · refine iff_of_true (Uses.within ?_) (by simp [hended])
      exact isolated_of_uses 0 setting.wnear uses_continuePeriod

theorem within_tradeCycle {analysis : Analysis} {now : Time} :
    Within (surroundings startup) (Isolated wallet)
      (tradeCycle setting analysis .given wallet now cfg) db ↔
      ∀ period, db.getLatestPeriod = some period → HasEnded cfg now period →
        ¬ CanLeak cfg startup period := by
  rw [tradeCycle, within_bind_of_uses (surroundings_total startup),
    within_manageEvaluationPeriod]
  exact fun _ ↦ isolated_of_uses now setting.wnear (confined_of_trading uses_tradePeriod)

end Within

open Program in
/-- A cycle stays with its client and wallet exactly when no period ends, or the one that ends
can neither be harvested nor unwrapped. -/
theorem sends_only_through_given_iff (setting : Setting) (analysis : Analysis) (wallet : Wallet)
    (startup : Option Wallet) (now : Time) (cfg : ConfigAccess) (db : Database) :
    (∀ τ o db', Runs (surroundings startup) (start setting analysis .given wallet now cfg) db τ o
      db' → ∀ e ∈ τ, ∀ client account, e.request.sender = some (client, account) →
        client = .given ∧ account = wallet.accountId) ↔
    ∀ period, db.getLatestPeriod = some period → HasEnded cfg now period →
      ¬ CanLeak cfg startup period := by
  change Within (surroundings startup) (Request.Isolated wallet) _ db ↔ _
  rw [start, within_bind_of_uses (surroundings_total startup) (by exact fun _ ↦ trivial),
    within_tradeCycle]

section Simulation

open Simulate

variable {γ : Type} {outside : Outside γ}

theorem surroundings_answer {sim : SimulationClient} (q : Request) (w : World γ) :
    surroundings outside.startup q w.db (answer sim outside q w).1
      (answer sim outside q w).2.db := by
  cases q with
  | chain client q =>
    cases client with
    | given => exact clientAnswer_db sim w q
    | standard => rfl
  | db q => exact .inl rfl
  | newWallet => exact ⟨rfl, rfl⟩
  | _ => rfl

/-- A back-test stays in its simulation unless a period ends that can be harvested or
unwrapped. -/
theorem simulation_isolated (setting : Setting) (analysis : Analysis) (cfg : ConfigAccess)
    (initialNative : BigDecimal) (simDay : Time) (outside : Outside γ) (w : World γ)
    (h : ∀ period, w.db.getLatestPeriod = some period → HasEnded cfg simDay period →
      ¬ CanLeak cfg outside.startup period) :
    ∀ e ∈ (simulateCycle setting analysis initialNative simDay outside cfg w).trace,
      e.request.Isolated simulationWallet :=
  within_tradeCycle.mpr h _ _ _ (Program.runs_of_run World.db surroundings_answer _ w)

end Simulation

def profitableWorld : Simulate.World Unit where
  db := ⟨[], [], [], [⟨"eval_1", 0, 100 * yoctoPerNear, none, 0⟩], [], []⟩
  portfolio := .new (1000 * yoctoPerNear)
  registered := SortedMap.empty.insert (wnearToken true) ()
  decimals := .empty
  lastHarvest := fun _ ↦ 0
  readings := 0
  chain := ()

def connected : Simulate.Outside Unit where
  startup := some ⟨"root.near"⟩
  predictionService := .ok ()
  utcNow := fun _ ↦ 10 * day
  unixSeconds := fun _ ↦ 1700000000
  newUuid := toString
  chain
    | .exec _, s => (.succeeded "hash" (.ok 0), s)
    | .transferNativeToken .., s => (.succeeded "hash" (.ok 0), s)
    | .nativeAmount _, s => (.ok (BitVec.ofNat 128 (100 * yoctoPerNear)), s)
    | .storageBalanceOf _, s => (.error "", s)
    | .storageBalanceBounds, s => (.error "", s)
    | .getDeposits _, s => (.error "", s)
    | .wnearBalanceOf _, s => (.error "", s)
    | .ftMetadata _, s => (.error "", s)
    | .ftBalanceOf _, s => (.error "", s)
    | .ftTotalSupply _, s => (.error "", s)

/-- The same process stays in its simulation when a period ends that began with nothing. Its only
token is sold there. -/
theorem simulation_isolated_marketWorld :
    let cycle := Simulate.simulateCycle ⟨true, .lists, 10⟩ Simulate.idleAnalysis 0 (10 * day)
      connected Simulate.simulationConfig Simulate.marketWorld
    cycle.trace.filterMap (·.request.sender) ≠ [] ∧
      ∀ e ∈ cycle.trace, e.request.Isolated Simulate.simulationWallet := by
  intro cycle
  refine ⟨List.ne_nil_of_length_pos (by decide +kernel), ?_⟩
  refine simulation_isolated _ _ _ _ _ _ _ fun period hlatest _ ↦ ?_
  cases hlatest
  rintro (hharvest | ⟨hstopped, -⟩)
  · exact hharvest.initial_ne rfl
  · cases hstopped

/-- A back-test withdraws, unwraps and transfers NEAR on the real chain. -/
theorem simulation_sends_to_chain :
    ((Simulate.simulateCycle ⟨true, .lists, 10⟩ Simulate.idleAnalysis 0 (10 * day)
      connected Simulate.simulationConfig profitableWorld).trace.filterMap (·.request.sender)) =
      [(.standard, "root.near"), (.standard, "root.near"), (.standard, "root.near")] := by
  decide +kernel

end Zaciraci.Trade
