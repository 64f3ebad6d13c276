import Zaciraci.Simulate.LookAhead

namespace Zaciraci.Simulate

open Lib Program Persistence Trade
open Storage (Wallet)

/-- A database that answers every query, and that nothing else writes to during a call. -/
def storing : Environment Request Answer Database
  | .db q, db, a, db' => db.answer q = (a, db')
  | _, db, _, db' => db' = db

def starts (db : Database) : List Time := db.evaluationPeriods.map (·.startTime)

theorem getLatestPeriod_eq_none {db : Database} : db.getLatestPeriod = none ↔ starts db = [] := by
  rw [Database.getLatestPeriod, List.argmax_eq_none, starts, List.map_eq_nil_iff]

theorem getLatestPeriod_spec {db : Database} {latest : EvaluationPeriod}
    (h : db.getLatestPeriod = some latest) :
    latest.startTime ∈ starts db ∧ ∀ s ∈ starts db, s ≤ latest.startTime := by
  refine ⟨List.mem_map_of_mem (List.argmax_mem h), ?_⟩
  intro s hs
  obtain ⟨period, hperiod, rfl⟩ := List.mem_map.1 hs
  exact List.le_of_mem_argmax hperiod h

theorem starts_answer {q : Request} {db db' : Database} {a : Answer q} (hq : q.KeepsPeriods)
    (h : storing q db a db') : starts db' = starts db := by
  cases q with
  | db q =>
    have hanswer : db' = (db.answer q).2 := (congrArg Prod.snd h).symm
    subst hanswer
    cases q with
    | insertPeriod period => exact hq.elim
    | cleanupOldRecords cutoff => exact hq.elim
    | updateSelectedTokens periodId tokens =>
      simp only [Database.answer, Database.updateSelectedTokens]
      split
      · rw [starts, List.map_map]
        apply List.map_congr_left
        intro period _
        dsimp only [Function.comp]
        split <;> rfl
      · rfl
    | insertTransaction tx =>
      simp only [Database.answer, Database.insertTransaction]
      split <;> rfl
    | insertHolding record =>
      simp only [Database.answer, Database.insertHolding]
      split <;> rfl
    | _ => rfl
  | _ => exact congrArg starts h

section Frame

variable {α : Type} {p : TradeProgram α} {db db' : Database} {τ : List TradeExchange}
  {o : Outcome String α}

theorem starts_of_runs (h : Runs storing p db τ o db') (huses : p.Uses Request.KeepsPeriods) :
    starts db' = starts db :=
  h.preserves (I := fun d ↦ starts d = starts db) huses
    (fun _ _ _ _ hq hstep hs ↦ (starts_answer hq hstep).trans hs) rfl

def Inserts (τ : List TradeExchange) (period : EvaluationPeriod) : Prop :=
  ∃ e ∈ τ, e.request = .db (.insertPeriod period)

theorem inserts_cons {e : TradeExchange} {period : EvaluationPeriod} :
    Inserts (e :: τ) period ↔ e.request = .db (.insertPeriod period) ∨ Inserts τ period := by
  simp only [Inserts, List.mem_cons, exists_eq_or_imp]

theorem inserts_append {υ : List TradeExchange} {period : EvaluationPeriod} :
    Inserts (τ ++ υ) period ↔ Inserts τ period ∨ Inserts υ period := by
  simp only [Inserts, List.mem_append, or_and_right, exists_or]

theorem not_inserts_of_runs (h : Runs storing p db τ o db')
    (huses : p.Uses Request.KeepsPeriods) (period : EvaluationPeriod) : ¬ Inserts τ period := by
  rintro ⟨e, he, hrequest⟩
  have hkeeps := huses.always τ o h.exec e he
  rw [hrequest] at hkeeps
  exact hkeeps

end Frame

/-- During `τ` the wall clock stays within the shortest time that periods are kept. -/
def SteadyClock (τ : List TradeExchange) : Prop :=
  ∀ w w' : Time, (⟨.utcNow, w⟩ : TradeExchange) ∈ τ → (⟨.utcNow, w'⟩ : TradeExchange) ∈ τ →
    w' - w ≤ minRetentionDays * day

theorem starts_cleanupOldRecords {db : Database} {cutoff : Time} :
    (∀ s ∈ starts (db.cleanupOldRecords cutoff), s ∈ starts db) ∧
      ∀ period ∈ db.evaluationPeriods, cutoff ≤ period.createdAt →
        period.startTime ∈ starts (db.cleanupOldRecords cutoff) := by
  constructor
  · exact List.map_subset _ (List.filter_subset_self _)
  · intro period hperiod hcutoff
    exact List.mem_map_of_mem (List.mem_filter.2 ⟨hperiod, decide_eq_true hcutoff⟩)

theorem insertPeriod_ok {db db' : Database} {period created : EvaluationPeriod}
    (h : db.insertPeriod period = (.ok created, db')) :
    created = period ∧ db'.evaluationPeriods = db.evaluationPeriods ++ [period] := by
  rw [Database.insertPeriod] at h
  split at h
  · cases h
  · cases h
    exact ⟨rfl, rfl⟩

section Create

variable {db db' : Database} {τ : List TradeExchange} {cfg : ConfigAccess}

theorem of_cleanup {retention : UInt32} (h : Runs storing (cleanupOldEvaluationPeriods retention)
      db τ (.ok ()) db') :
    (∀ period, ¬ Inserts τ period) ∧ (∀ s ∈ starts db', s ∈ starts db) ∧
      ∀ period ∈ db.evaluationPeriods,
        (∀ w, (⟨.utcNow, w⟩ : TradeExchange) ∈ τ → w - period.createdAt ≤ minRetentionDays * day) →
        period.startTime ∈ starts db' := by
  rw [cleanupOldEvaluationPeriods] at h
  split at h
  · cases h
    exact ⟨by simp [Inserts], fun _ hs ↦ hs, fun _ hp _ ↦ List.mem_map_of_mem hp⟩
  · obtain - | ⟨hclock, hrest⟩ := h
    obtain - | ⟨hquery, hrest⟩ := hrest
    cases hclock
    cases hquery
    cases hrest
    refine ⟨by simp [Inserts], starts_cleanupOldRecords.1, ?_⟩
    intro period hperiod hsteady
    apply starts_cleanupOldRecords.2 period hperiod
    have hclock := hsteady _ (List.mem_cons_self ..)
    have hkept : (minRetentionDays : ℤ) * day ≤ max retention.toNat minRetentionDays * day :=
      mul_le_mul_of_nonneg_right (by simp) (by decide)
    exact sub_le_comm.1 (hclock.trans hkept)

theorem of_createPeriod {value : ℕ} {created : EvaluationPeriod}
    (h : Runs storing (createPeriod value cfg) db τ (.ok created) db') :
    (∀ period, Inserts τ period ↔ period = created) ∧
      (⟨.utcNow, created.startTime⟩ : TradeExchange) ∈ τ ∧
      (∀ s ∈ starts db', s = created.startTime ∨ s ∈ starts db) ∧
      (SteadyClock τ → created.startTime ∈ starts db') := by
  obtain - | ⟨huuid, h⟩ := h
  obtain - | ⟨hstart, h⟩ := h
  obtain - | ⟨hcreated, h⟩ := h
  obtain - | ⟨hinsert, h⟩ := h
  cases huuid
  cases hstart
  cases hcreated
  rename_i uuid startTime createdAt inserted _ reply
  cases reply with
  | error e => cases h
  | ok row =>
    obtain ⟨rfl, hrows⟩ := insertPeriod_ok hinsert
    obtain ⟨_, τ₁, τ₂, _, hcleanup, hdone, rfl⟩ := Runs.of_bind_ok (p :=
      cleanupOldEvaluationPeriods cfg.evaluationPeriodsRetentionDays) h
    cases hdone
    obtain ⟨hinserts, hsub, hkeep⟩ := of_cleanup hcleanup
    have hstarts : starts inserted = starts db ++ [startTime] := by
      rw [starts, hrows, List.map_append]
      rfl
    refine ⟨?_, by simp, ?_, ?_⟩
    · intro period
      rw [List.append_nil]
      simp only [inserts_cons, hinserts, or_false, reduceCtorEq, false_or, Request.db.injEq,
        Query.insertPeriod.injEq]
      exact eq_comm
    · intro s hs
      have hs := hsub s hs
      rw [hstarts, List.mem_append, List.mem_singleton] at hs
      exact hs.symm
    · intro hsteady
      refine hkeep _ (hrows ▸ List.mem_append_right _ (List.mem_singleton_self _)) fun w hw ↦ ?_
      exact hsteady createdAt w (by simp) (by simp [hw])

end Create

section End

variable {setting : Setting} {client : Client} {wallet : Wallet} {cfg : ConfigAccess}
  {α : Type} {p : TradeProgram α}

theorem keeps_of_quiet (now : Time) (wnear : TokenAccount) {o : Outcome String α}
    {db db' : Database} {τ : List TradeExchange} (huses : p.Uses (Request.Quiet now wnear))
    (h : Runs storing p db τ o db') : starts db' = starts db ∧ ∀ period, ¬ Inserts τ period := by
  have hkeeps : p.Uses Request.KeepsPeriods := huses.mono fun _ hq ↦ hq.2
  exact ⟨starts_of_runs h hkeeps, not_inserts_of_runs h hkeeps⟩

theorem of_endPeriod {period : EvaluationPeriod} {result : EvaluationPeriodResult}
    {db db' : Database} {τ : List TradeExchange} (henabled : cfg.tradeEnabled = true)
    (h : Runs storing (endPeriod setting client wallet cfg period) db τ (.ok result) db') :
    ∃ balance created db₁ τ₁ τ₂, starts db₁ = starts db ∧ (∀ p, ¬ Inserts τ₁ p) ∧
      Runs storing (createPeriod balance cfg) db₁ τ₂ (.ok created) db' ∧ τ = τ₁ ++ τ₂ ∧
      result.liquidatedBalance = some balance := by
  obtain ⟨liquidation, τ₁, _, db₁, hliquidate, h₁, rfl⟩ := h.of_bind_ok
  obtain ⟨harvested, τ₂, _, db₂, hharvest, h₂, rfl⟩ := h₁.of_bind_ok
  obtain ⟨balance, τ₃, _, db₃, hbalance, h₃, rfl⟩ := h₂.of_bind_ok
  rw [nextPeriod, if_pos henabled] at h₃
  obtain ⟨created, τ₄, _, _, hcreate, hdone, rfl⟩ := h₃.of_bind_ok
  cases hdone
  have hliquidated := keeps_of_quiet 0 setting.wnear
    (quiet_of_trading uses_liquidateAllPositions) hliquidate
  have hharvested := keeps_of_quiet 0 setting.wnear uses_checkAndExecuteHarvest.attempt hharvest
  have hweighed := keeps_of_quiet 0 setting.wnear (quiet_of_trading uses_postHarvestBalance)
    hbalance
  refine ⟨balance, created, db₃, τ₁ ++ (τ₂ ++ τ₃), τ₄, ?_, ?_, hcreate, by simp, rfl⟩
  · exact hweighed.1.trans (hharvested.1.trans hliquidated.1)
  · intro p
    simp only [inserts_append, hliquidated.2, hharvested.2, hweighed.2, or_self, not_false_eq_true]

end End

theorem of_latestPeriod {α : Type} {f : Option EvaluationPeriod → TradeProgram α}
    {o : Outcome String α} {db db' : Database} {τ : List TradeExchange}
    (h : Runs storing (query .latestPeriod >>= f) db τ o db') :
    ∃ υ, τ = ⟨.db .latestPeriod, .ok db.getLatestPeriod⟩ :: υ ∧
      Runs storing (f db.getLatestPeriod) db υ o db' := by
  obtain ⟨a, _, υ, hquery, h, rfl⟩ := Runs.of_ask h
  cases hquery
  exact ⟨υ, rfl, h⟩

/-- A call of `manage_evaluation_period` with trading enabled that returned. -/
structure Visit (setting : Setting) (days : UInt32) where
  client : Client
  wallet : Wallet
  currentTime : Time
  availableFunds : ℕ
  cfg : ConfigAccess
  before : Database
  trace : List TradeExchange
  result : EvaluationPeriodResult
  after : Database
  evaluationDays : cfg.tradeEvaluationDays = days
  enabled : cfg.tradeEnabled = true
  returned : Runs storing (manageEvaluationPeriod setting client wallet currentTime availableFunds
    cfg) before trace (.ok result) after

def Over (days : UInt32) (start now : Time) : Prop := (days.toNat : ℤ) ≤ numDays (now - start)

namespace Visit

variable {setting : Setting} {days : UInt32}

def Creates (v : Visit setting days) (period : EvaluationPeriod) : Prop := Inserts v.trace period

def Ends (v : Visit setting days) : Prop :=
  v.result.liquidatedBalance.isSome = true ∧ ∃ period, v.Creates period

structure Continues (v : Visit setting days) (latest : EvaluationPeriod) : Prop where
  running : ¬ Over days latest.startTime v.currentTime
  balance : v.result.liquidatedBalance = none
  creates : ∀ period, ¬ v.Creates period
  starts : starts v.after = starts v.before

/-- A period is created. Its start time is what the wall clock said. -/
structure Starts (v : Visit setting days) (created : EvaluationPeriod) : Prop where
  creates : ∀ period, v.Creates period ↔ period = created
  clock : (⟨.utcNow, created.startTime⟩ : TradeExchange) ∈ v.trace
  starts : ∀ s ∈ starts v.after, s = created.startTime ∨ s ∈ starts v.before
  kept : SteadyClock v.trace → created.startTime ∈ Simulate.starts v.after

theorem starts_of_createPeriod {v : Visit setting days} {balance : ℕ} {db : Database}
    {created : EvaluationPeriod} {τ₁ τ₂ : List TradeExchange}
    (h : Runs storing (createPeriod balance v.cfg) db τ₂ (.ok created) v.after)
    (htrace : v.trace = τ₁ ++ τ₂) (hquiet : ∀ period, ¬ Inserts τ₁ period)
    (hstarts : Simulate.starts db = Simulate.starts v.before) : v.Starts created := by
  obtain ⟨hcreates, hclock, honly, hkept⟩ := of_createPeriod h
  constructor
  · intro period
    rw [Creates, htrace, inserts_append, hcreates]
    exact or_iff_right (hquiet period)
  · rw [htrace]
    exact List.mem_append_right τ₁ hclock
  · rw [← hstarts]
    exact honly
  · intro hsteady
    apply hkept
    intro w w' hw hw'
    apply hsteady w w' <;> rw [htrace]
    · exact List.mem_append_right τ₁ hw
    · exact List.mem_append_right τ₁ hw'

theorem hasEnded_iff (v : Visit setting days) {latest : EvaluationPeriod} :
    HasEnded v.cfg v.currentTime latest ↔ Over days latest.startTime v.currentTime := by
  rw [HasEnded, v.evaluationDays, Over]

theorem cases (v : Visit setting days) :
    (∃ latest, v.before.getLatestPeriod = some latest ∧ v.Continues latest) ∨
    ∃ created, v.Starts created ∧
      (v.before.getLatestPeriod = none ∧ v.result.liquidatedBalance = none ∨
        ∃ latest, v.before.getLatestPeriod = some latest ∧
          Over days latest.startTime v.currentTime ∧
          v.result.liquidatedBalance.isSome = true) := by
  obtain ⟨υ, htrace, h⟩ := of_latestPeriod v.returned
  have hquery : ∀ period, ¬ Inserts [⟨.db .latestPeriod, .ok v.before.getLatestPeriod⟩] period := by
    simp [Inserts]
  rw [← List.singleton_append] at htrace
  cases hlatest : v.before.getLatestPeriod with
  | none =>
    rw [hlatest] at h
    obtain ⟨created, τ, _, _, hcreate, hdone, rfl⟩ := h.of_bind_ok
    obtain ⟨hresult, hafter, rfl⟩ := hdone.of_pure
    rw [← hafter] at hcreate
    rw [List.append_nil] at htrace
    refine .inr ⟨created, starts_of_createPeriod hcreate htrace hquery rfl, .inl ⟨rfl, ?_⟩⟩
    rw [Outcome.ok.inj hresult]
  | some latest =>
    rw [hlatest] at h
    dsimp only at h
    split at h
    next hended =>
      obtain ⟨balance, created, db₁, τ₁, τ₂, hstarts, hquiet, hcreate, rfl, hbalance⟩ :=
        of_endPeriod v.enabled h
      rw [← List.append_assoc] at htrace
      have hnone : ∀ period, ¬ Inserts
          ([⟨.db .latestPeriod, .ok v.before.getLatestPeriod⟩] ++ τ₁) period := by
        intro period
        rw [inserts_append, not_or]
        exact ⟨hquery period, hquiet period⟩
      refine .inr ⟨created, starts_of_createPeriod hcreate htrace hnone hstarts, ?_⟩
      exact .inr ⟨latest, rfl, v.hasEnded_iff.1 hended, by rw [hbalance]; rfl⟩
    next hended =>
      have hkeeps : (continuePeriod latest).Uses Request.KeepsPeriods :=
        (uses_query trivial).bind fun _ ↦ trivial
      obtain ⟨count, _, _, _, -, hdone, rfl⟩ := h.of_bind_ok
      obtain ⟨hresult, -, rfl⟩ := hdone.of_pure
      refine .inl ⟨latest, rfl, mt v.hasEnded_iff.2 hended, ?_, ?_, starts_of_runs h hkeeps⟩
      · rw [Outcome.ok.inj hresult]
      · intro period
        rw [Creates, htrace, inserts_append, not_or]
        exact ⟨hquery period, not_inserts_of_runs h hkeeps period⟩

end Visit

theorem Over.mono {days : UInt32} {s s' u u' : Time} (h : Over days s u) (hs : s' ≤ s)
    (hu : u ≤ u') : Over days s' u' :=
  h.trans (Int.tdiv_le_tdiv (by decide) (sub_le_sub hu hs))

/-- From `t` on, the newest period is over exactly when one that started at `start` is. -/
def CountsFrom (days : UInt32) (t start : Time) (db : Database) : Prop :=
  ∃ latest, db.getLatestPeriod = some latest ∧
    ∀ u, t ≤ u → (Over days latest.startTime u ↔ Over days start u)

theorem CountsFrom.congr {days : UInt32} {t start : Time} {db db' : Database}
    (h : CountsFrom days t start db) (hstarts : starts db' = starts db) :
    CountsFrom days t start db' := by
  obtain ⟨latest, hlatest, hover⟩ := h
  obtain ⟨hmem, hmax⟩ := getLatestPeriod_spec hlatest
  cases hlatest' : db'.getLatestPeriod with
  | none =>
    rw [getLatestPeriod_eq_none, hstarts] at hlatest'
    simp [hlatest'] at hmem
  | some latest' =>
    obtain ⟨hmem', hmax'⟩ := getLatestPeriod_spec hlatest'
    rw [hstarts] at hmem' hmax'
    have heq : latest'.startTime = latest.startTime := le_antisymm (hmax _ hmem') (hmax' _ hmem)
    exact ⟨latest', hlatest', heq ▸ hover⟩

namespace Visit

variable {setting : Setting} {days : UInt32}

/-- A period that is older than the one created but says to have started later was over as well
when that was created. -/
theorem Starts.countsFrom {v : Visit setting days} {created : EvaluationPeriod}
    (h : v.Starts created) (hsteady : SteadyClock v.trace) :
    CountsFrom days v.currentTime created.startTime v.after := by
  have hmem := h.kept hsteady
  cases hlatest : v.after.getLatestPeriod with
  | none =>
    rw [getLatestPeriod_eq_none] at hlatest
    simp [hlatest] at hmem
  | some latest =>
    obtain ⟨hlatestMem, hmax⟩ := getLatestPeriod_spec hlatest
    refine ⟨latest, hlatest, fun u hu ↦ ?_⟩
    refine ⟨fun hover ↦ hover.mono (hmax _ hmem) le_rfl, fun hover ↦ ?_⟩
    rcases h.starts _ hlatestMem with heq | hold
    · rwa [heq]
    · rcases v.cases with ⟨_, _, hcontinues⟩ | ⟨_, _, ⟨hnone, -⟩ | ⟨old, hold', hended, -⟩⟩
      · exact (hcontinues.creates _ ((h.creates _).2 rfl)).elim
      · rw [getLatestPeriod_eq_none] at hnone
        simp [hnone] at hold
      · exact hended.mono ((getLatestPeriod_spec hold').2 _ hold) hu

theorem ends_iff {v : Visit setting days} {t start : Time}
    (hcounts : CountsFrom days t start v.before) (ht : t ≤ v.currentTime) :
    (v.Ends ↔ Over days start v.currentTime) ∧ (¬ v.Ends → CountsFrom days t start v.after) := by
  obtain ⟨latest, hlatest, hover⟩ := hcounts
  rw [← hover _ ht]
  rcases v.cases with ⟨latest', hlatest', h⟩ |
    ⟨created, h, ⟨hnone, -⟩ | ⟨latest', hlatest', hended, hbalance⟩⟩
  · obtain rfl : latest = latest' := Option.some.inj (hlatest.symm.trans hlatest')
    have hends : ¬ v.Ends := fun hends ↦ (hends.2.elim h.creates)
    refine ⟨iff_of_false hends h.running, fun _ ↦ ?_⟩
    exact CountsFrom.congr ⟨latest, hlatest, hover⟩ h.starts
  · rw [hnone] at hlatest
    cases hlatest
  · obtain rfl : latest = latest' := Option.some.inj (hlatest.symm.trans hlatest')
    have hends : v.Ends := ⟨hbalance, created, (h.creates _).2 rfl⟩
    exact ⟨iff_of_true hends hended, fun hnot ↦ (hnot hends).elim⟩

/-- Between two calls nobody else adds or removes periods, and the time does not go back. -/
def Then (v v' : Visit setting days) : Prop :=
  v.currentTime ≤ v'.currentTime ∧ Simulate.starts v'.before = Simulate.starts v.after

def Due (t : Time) (v : Visit setting days) : Prop := t + days.toNat * day ≤ v.currentTime

def UntilDue (t : Time) (P : Visit setting days → Prop) : List (Visit setting days) → Prop
  | [] => True
  | v :: vs => P v ∧ (¬ v.Due t → UntilDue t P vs)

theorem untilDue_ends_iff {t start : Time} {v₀ : Visit setting days}
    {vs : List (Visit setting days)} (hcalls : (v₀ :: vs).IsChain Then) (ht : t ≤ v₀.currentTime)
    (hcounts : CountsFrom days t start v₀.after) :
    UntilDue t (fun v ↦ v.Ends ↔ v.Due t) vs ↔
      UntilDue t (fun v ↦ Over days start v.currentTime ↔ v.Due t) vs := by
  induction vs generalizing v₀ with
  | nil => exact Iff.rfl
  | cons v vs ih =>
    rw [List.isChain_cons_cons] at hcalls
    obtain ⟨⟨htime, hstarts⟩, hcalls⟩ := hcalls
    obtain ⟨hends, hafter⟩ := ends_iff (hcounts.congr hstarts) (ht.trans htime)
    rw [UntilDue, UntilDue, hends]
    refine and_congr_right fun hdue ↦ imp_congr_right fun hnot ↦ ih hcalls (ht.trans htime) ?_
    exact hafter (mt (hends.trans hdue).1 hnot)

/-- A period ends on time if the wall clock, which is where its start time comes from, counts as
the time that the call which created it was given. -/
theorem ends_on_time_iff {setting : Setting} {days : UInt32} (v₀ : Visit setting days)
    (vs : List (Visit setting days)) (period : EvaluationPeriod)
    (hcalls : (v₀ :: vs).IsChain Then) (hcreates : v₀.Creates period)
    (hsteady : SteadyClock v₀.trace) :
    (⟨.utcNow, period.startTime⟩ : TradeExchange) ∈ v₀.trace ∧
      (UntilDue v₀.currentTime (fun v ↦ v.Ends ↔ v.Due v₀.currentTime) vs ↔
        UntilDue v₀.currentTime
          (fun v ↦ Over days period.startTime v.currentTime ↔ v.Due v₀.currentTime) vs) := by
  obtain ⟨_, _, hcontinues⟩ | ⟨created, hstarts, -⟩ := v₀.cases
  · exact (hcontinues.creates _ hcreates).elim
  · obtain rfl := (hstarts.creates _).1 hcreates
    exact ⟨hstarts.clock, untilDue_ends_iff hcalls le_rfl (hstarts.countsFrom hsteady)⟩

end Visit

theorem storing_answer (sim : SimulationClient) (outside : Outside Unit) (q : Request)
    (w : World Unit) : storing q w.db (answer sim outside q w).1 (answer sim outside q w).2.db := by
  cases q with
  | chain client q =>
    cases client with
    | given => exact clientAnswer_db sim w q
    | standard => exact rfl
  | db q => exact rfl
  | _ => exact rfl

def simulatedCall (clock simDay : Time) (w : World Unit) :
    Program.Report Request Answer String EvaluationPeriodResult (World Unit) :=
  (manageEvaluationPeriod ⟨true, .lists, 10⟩ .given simulationWallet simDay 0 simulationConfig).run
    (answer ⟨wnearToken true, 0, simDay⟩ { twoDaysLater with utcNow := fun _ ↦ clock }) w

def Visit.ofCall (clock simDay : Time) (w : World Unit) (result : EvaluationPeriodResult)
    (h : (simulatedCall clock simDay w).outcome = .ok result) : Visit ⟨true, .lists, 10⟩ 10 where
  client := .given
  wallet := simulationWallet
  currentTime := simDay
  availableFunds := 0
  cfg := simulationConfig
  before := w.db
  trace := (simulatedCall clock simDay w).trace
  result
  after := (simulatedCall clock simDay w).state.db
  evaluationDays := rfl
  enabled := rfl
  returned := h ▸ runs_of_run World.db (storing_answer _ _) _ w

theorem Visit.ofCall_clock {clock simDay : Time} {w : World Unit} {result : EvaluationPeriodResult}
    {h : (simulatedCall clock simDay w).outcome = .ok result} {reading : Time}
    (hreading : (⟨.utcNow, reading⟩ : TradeExchange) ∈
      (Visit.ofCall clock simDay w result h).trace) :
    reading = clock := by
  obtain ⟨_, _, hanswer⟩ := (runs_run _ _ w).answered _ hreading
  exact (congrArg Prod.fst hanswer).symm

theorem Visit.ofCall_steady {clock simDay : Time} {w : World Unit} {result : EvaluationPeriodResult}
    {h : (simulatedCall clock simDay w).outcome = .ok result} :
    SteadyClock (Visit.ofCall clock simDay w result h).trace := by
  intro w w' hw hw'
  rw [ofCall_clock hw, ofCall_clock hw', sub_self]
  decide

def emptyWorld : World Unit :=
  { marketWorld with db := ⟨[], [], [], [], [], []⟩, portfolio := .new 0, registered := .empty }

def CreatesFirst (clock : Time) : Prop :=
  (simulatedCall clock (10 * day) emptyWorld).outcome = .ok ⟨"eval_0", true, [], none, []⟩

def firstVisit (clock : Time) (h : CreatesFirst clock) : Visit ⟨true, .lists, 10⟩ 10 :=
  .ofCall clock (10 * day) emptyWorld _ h

theorem firstVisit_creates (clock : Time) (h : CreatesFirst clock) :
    ∃ period, (firstVisit clock h).Creates period ∧ period.startTime = clock := by
  obtain ⟨_, hlatest, -⟩ | ⟨created, hstarts, -⟩ := (firstVisit clock h).cases
  · exact nomatch (show none = some _ from hlatest)
  · exact ⟨created, (hstarts.creates _).2 rfl, Visit.ofCall_clock hstarts.clock⟩

def endingVisit : Visit ⟨true, .lists, 10⟩ 10 :=
  .ofCall (10 * day) (20 * day) (simulatedCall (10 * day) (10 * day) emptyWorld).state
    ⟨"eval_4", true, [], some 0, []⟩ (by decide +kernel)

theorem ends_on_time_endingVisit : ∃ h period, (firstVisit (10 * day) h).Creates period ∧
    Visit.UntilDue (10 * day) (fun v ↦ v.Ends ↔ v.Due (10 * day)) [endingVisit] := by
  have h : CreatesFirst (10 * day) := by
    rw [CreatesFirst]
    decide +kernel
  obtain ⟨period, hcreates, hclock⟩ := firstVisit_creates (10 * day) h
  have hcalls : [firstVisit (10 * day) h, endingVisit].IsChain Visit.Then :=
    List.isChain_pair.2 ⟨show 10 * day ≤ 20 * day by decide, rfl⟩
  have hagrees : Over 10 period.startTime (20 * day) ↔ 10 * day + 10 * day ≤ 20 * day := by
    rw [hclock]
    exact iff_of_true (show 10 ≤ numDays (20 * day - 10 * day) by decide) (by decide)
  exact ⟨h, period, hcreates, (Visit.ends_on_time_iff (firstVisit (10 * day) h) [endingVisit]
    period hcalls hcreates Visit.ofCall_steady).2.2 ⟨hagrees, fun _ ↦ trivial⟩⟩

def lateVisit : Visit ⟨true, .lists, 10⟩ 10 :=
  .ofCall (1000 * day) (20 * day) (simulatedCall (1000 * day) (10 * day) emptyWorld).state
    ⟨"eval_0", true, [], none, []⟩ (by decide +kernel)

/-- In a back-test of past days the period does not end. -/
theorem lateVisit_not_ends : ∃ h period, (firstVisit (1000 * day) h).Creates period ∧
    [firstVisit (1000 * day) h, lateVisit].IsChain Visit.Then ∧
    SteadyClock (firstVisit (1000 * day) h).trace ∧ lateVisit.Due (10 * day) ∧
    ¬ lateVisit.Ends := by
  have h : CreatesFirst (1000 * day) := by
    rw [CreatesFirst]
    decide +kernel
  obtain ⟨period, hcreates, -⟩ := firstVisit_creates (1000 * day) h
  refine ⟨h, period, hcreates, ?_, Visit.ofCall_steady, ?_, fun hends ↦ nomatch hends.1⟩
  · exact List.isChain_pair.2 ⟨show 10 * day ≤ 20 * day by decide, rfl⟩
  · exact (show 10 * day + 10 * day ≤ 20 * day by decide)

end Zaciraci.Simulate
