import Zaciraci.Persistence.Database

namespace Zaciraci.Persistence

open Lib

/-- The time before which a cleanup deletes. With no days it deletes nothing, and it never deletes
what is younger than the least number of days. -/
def cutoffDate (minRetentionDays : ℕ) (now : Time) (retentionDays : UInt32) : Option Time :=
  if retentionDays = 0 then none
  else some (now - max retentionDays.toNat minRetentionDays * day)

namespace TokenRate

def minRetentionDays : ℕ := 7

def cleanupOldRecords (now : Time) (retentionDays : UInt32) (db : Database) : Database :=
  match cutoffDate minRetentionDays now retentionDays with
  | none => db
  | some cutoff =>
    { db with tokenRates := db.tokenRates.filter fun rate ↦ ¬ rate.timestamp < cutoff }

end TokenRate

namespace EvaluationPeriod

def minRetentionDays : ℕ := 30

def cleanupOldRecords (now : Time) (retentionDays : UInt32) (db : Database) : Database :=
  match cutoffDate minRetentionDays now retentionDays with
  | none => db
  | some cutoff => db.cleanupOldRecords cutoff

end EvaluationPeriod

inductive Cleanup
  | tokenRates (retentionDays : UInt32)
  | evaluationPeriods (retentionDays : UInt32)

def Cleanup.run (now : Time) : Cleanup → Database → Database
  | .tokenRates retentionDays => TokenRate.cleanupOldRecords now retentionDays
  | .evaluationPeriods retentionDays => EvaluationPeriod.cleanupOldRecords now retentionDays

/-- The database with the clock, and the cleanups that did not run yet. -/
structure Upkeep where
  now : Time
  db : Database
  spawned : List Cleanup

/-- What happens to the tables, each write with the days of retention that were configured. -/
inductive StoreAction
  | tick (d : ℕ)
  | batchInsert (rates : List TokenRate) (retentionDays : UInt32)
  | startPeriod (period : EvaluationPeriod) (retentionDays : UInt32)
  | selectTokens (periodId : String) (tokens : List String)
  | insertTransaction (tx : TradeTransaction)
  | insertHolding (holding : PortfolioHolding)
  | cleanup (index : ℕ)

namespace Upkeep

def step (s : Upkeep) : StoreAction → Upkeep
  | .tick d => { s with now := s.now + d }
  | .batchInsert rates retentionDays =>
    if rates.isEmpty then s
    else
      { s with
        db := { s.db with tokenRates := s.db.tokenRates ++ rates }
        spawned := s.spawned ++ [.tokenRates retentionDays] }
  | .startPeriod period retentionDays =>
    match s.db.insertPeriod { period with createdAt := s.now } with
    | (.error _, db) => { s with db }
    | (.ok _, db) => { s with db, spawned := s.spawned ++ [.evaluationPeriods retentionDays] }
  | .selectTokens periodId tokens => { s with db := (s.db.updateSelectedTokens periodId tokens).2 }
  | .insertTransaction tx => { s with db := (s.db.insertTransaction tx).2 }
  | .insertHolding holding => { s with db := (s.db.insertHolding holding).2 }
  | .cleanup index =>
    match s.spawned[index]? with
    | none => s
    | some cleanup => { s with db := cleanup.run s.now s.db, spawned := s.spawned.eraseIdx index }

def run (s : Upkeep) (actions : List StoreAction) : Upkeep := actions.foldl step s

end Upkeep

section Rates

variable {s : Upkeep} {days : ℕ}

def StoreAction.rates : StoreAction → List TokenRate
  | .batchInsert rates _ => rates
  | _ => []

/-- Every cleanup of rates leaves what is not older than `days`. -/
def Cleanup.Keeps (days : ℕ) : Cleanup → Prop
  | .tokenRates retentionDays =>
    retentionDays = 0 ∨ days ≤ max retentionDays.toNat TokenRate.minRetentionDays
  | .evaluationPeriods _ => True

def StoreAction.Keeps (days : ℕ) : StoreAction → Prop
  | .batchInsert _ retentionDays => (Cleanup.tokenRates retentionDays).Keeps days
  | _ => True

theorem now_le_step (s : Upkeep) (action : StoreAction) : s.now ≤ (s.step action).now := by
  cases action with
  | tick d => exact le_add_of_nonneg_right (Int.natCast_nonneg d)
  | batchInsert rates retentionDays =>
    simp only [Upkeep.step]
    split <;> exact le_rfl
  | startPeriod period retentionDays =>
    simp only [Upkeep.step]
    split <;> exact le_rfl
  | cleanup index =>
    simp only [Upkeep.step]
    split <;> exact le_rfl
  | _ => exact le_rfl

theorem tokenRates_cleanupOldRecords (db : Database) (cutoff : Time) :
    (db.cleanupOldRecords cutoff).tokenRates = db.tokenRates := rfl

theorem tokenRates_insertPeriod (db : Database) (period : EvaluationPeriod) :
    (db.insertPeriod period).2.tokenRates = db.tokenRates := by
  rw [Database.insertPeriod]
  split_ifs <;> rfl

theorem tokenRates_cleanup {now start : Time} {cleanup : Cleanup} (h : cleanup.Keeps days)
    (hstart : now - days * day ≤ start) (db : Database) :
    (cleanup.run now db).tokenRates.filter (start ≤ ·.timestamp) =
      db.tokenRates.filter (start ≤ ·.timestamp) := by
  cases cleanup with
  | tokenRates retentionDays =>
    rw [Cleanup.run, TokenRate.cleanupOldRecords, cutoffDate]
    split_ifs with hzero
    · rfl
    · have hdays := h.resolve_left hzero
      have hcutoff : now - max retentionDays.toNat TokenRate.minRetentionDays * day ≤ start := by
        refine le_trans (sub_le_sub_left ?_ now) hstart
        exact mul_le_mul_of_nonneg_right (by exact_mod_cast hdays) (by decide)
      dsimp only
      rw [List.filter_filter]
      refine List.filter_congr fun rate _ ↦ ?_
      by_cases hrate : start ≤ rate.timestamp
      · have hkept : ¬ rate.timestamp < now -
            (max retentionDays.toNat TokenRate.minRetentionDays : ℕ) * day :=
          not_lt.2 (hcutoff.trans hrate)
        rw [decide_eq_true hrate, decide_eq_true hkept]
        rfl
      · rw [decide_eq_false hrate, Bool.false_and]
  | evaluationPeriods retentionDays =>
    rw [Cleanup.run, EvaluationPeriod.cleanupOldRecords]
    split
    · rfl
    · rw [tokenRates_cleanupOldRecords]

theorem tokenRates_step {action : StoreAction} {start : Time}
    (hspawned : ∀ cleanup ∈ s.spawned, cleanup.Keeps days) (haction : action.Keeps days)
    (hstart : s.now - days * day ≤ start) :
    (s.step action).db.tokenRates.filter (start ≤ ·.timestamp) =
        (s.db.tokenRates ++ action.rates).filter (start ≤ ·.timestamp) ∧
      ∀ cleanup ∈ (s.step action).spawned, cleanup.Keeps days := by
  have hsame {db : Database} (h : db.tokenRates = s.db.tokenRates) :
      db.tokenRates.filter (start ≤ ·.timestamp) =
        (s.db.tokenRates ++ []).filter (start ≤ ·.timestamp) := by
    rw [h, List.append_nil]
  cases action with
  | tick d => exact ⟨hsame rfl, hspawned⟩
  | batchInsert rates retentionDays =>
    simp only [Upkeep.step]
    split_ifs with hempty
    · rw [List.isEmpty_iff.1 hempty]
      exact ⟨hsame rfl, hspawned⟩
    · refine ⟨rfl, ?_⟩
      exact List.forall_mem_append.2 ⟨hspawned, List.forall_mem_singleton.2 haction⟩
  | startPeriod period retentionDays =>
    have hrates := tokenRates_insertPeriod s.db { period with createdAt := s.now }
    simp only [Upkeep.step]
    split
    · next db hinsert =>
      rw [hinsert] at hrates
      exact ⟨hsame hrates, hspawned⟩
    · next db hinsert =>
      rw [hinsert] at hrates
      refine ⟨hsame hrates, ?_⟩
      exact List.forall_mem_append.2 ⟨hspawned, List.forall_mem_singleton.2 trivial⟩
  | selectTokens periodId tokens =>
    refine ⟨hsame ?_, hspawned⟩
    change (s.db.updateSelectedTokens periodId tokens).2.tokenRates = _
    rw [Database.updateSelectedTokens]
    split_ifs <;> rfl
  | insertTransaction tx =>
    refine ⟨hsame ?_, hspawned⟩
    change (s.db.insertTransaction tx).2.tokenRates = _
    rw [Database.insertTransaction]
    split_ifs <;> rfl
  | insertHolding holding =>
    refine ⟨hsame ?_, hspawned⟩
    change (s.db.insertHolding holding).2.tokenRates = _
    rw [Database.insertHolding]
    split_ifs <;> rfl
  | cleanup index =>
    simp only [Upkeep.step]
    split
    · exact ⟨hsame rfl, hspawned⟩
    · next cleanup hindex =>
      have hkeeps := hspawned cleanup (List.mem_of_getElem? hindex)
      refine ⟨?_, fun c hc ↦ hspawned c (List.mem_of_mem_eraseIdx hc)⟩
      change _ = (s.db.tokenRates ++ []).filter _
      rw [List.append_nil]
      exact tokenRates_cleanup hkeeps hstart s.db

theorem now_le_run (s : Upkeep) (actions : List StoreAction) : s.now ≤ (s.run actions).now := by
  induction actions generalizing s with
  | nil => exact le_rfl
  | cons action actions ih => exact (now_le_step s action).trans (ih _)

theorem tokenRates_run {actions : List StoreAction} {start : Time}
    (hspawned : ∀ cleanup ∈ s.spawned, cleanup.Keeps days)
    (hactions : ∀ action ∈ actions, action.Keeps days)
    (hstart : (s.run actions).now - days * day ≤ start) :
    (s.run actions).db.tokenRates.filter (start ≤ ·.timestamp) =
      (s.db.tokenRates ++ actions.flatMap StoreAction.rates).filter (start ≤ ·.timestamp) := by
  induction actions generalizing s with
  | nil => rw [List.flatMap_nil, List.append_nil]; rfl
  | cons action actions ih =>
    obtain ⟨haction, hrest⟩ := List.forall_mem_cons.1 hactions
    have hnow : s.now - days * day ≤ start :=
      (sub_le_sub_right (now_le_run s (action :: actions)) _).trans hstart
    obtain ⟨hstep, hspawned'⟩ := tokenRates_step hspawned haction hnow
    have hrun := ih hspawned' hrest hstart
    change ((s.step action).run actions).db.tokenRates.filter _ = _
    rw [hrun, List.filter_append, hstep, ← List.filter_append, List.flatMap_cons,
      List.append_assoc]

theorem filter_of_young {rows rows' : List TokenRate} {start : Time}
    (h : rows.filter (start ≤ ·.timestamp) = rows'.filter (start ≤ ·.timestamp))
    {p : TokenRate → Bool} (hp : ∀ rate, p rate = true → start ≤ rate.timestamp) :
    rows.filter p = rows'.filter p := by
  have hsplit (l : List TokenRate) :
      l.filter p = (l.filter (start ≤ ·.timestamp)).filter p := by
    rw [List.filter_filter]
    refine List.filter_congr fun rate _ ↦ ?_
    cases hrate : p rate with
    | false => rfl
    | true => rw [decide_eq_true (hp rate hrate)]; rfl
  rw [hsplit rows, hsplit rows', h]

end Rates

section Reads

variable {db db' : Database} {start : Time}

theorem getRatesInTimeRange_of_young
    (h : db.tokenRates.filter (start ≤ ·.timestamp) = db'.tokenRates.filter (start ≤ ·.timestamp))
    (stop : Time) (base quote : TokenAccount) :
    db.getRatesInTimeRange start stop base quote =
      db'.getRatesInTimeRange start stop base quote := by
  rw [Database.getRatesInTimeRange, Database.getRatesInTimeRange, filter_of_young h]
  intro rate hrate
  exact (of_decide_eq_true hrate).1.le

theorem getByVolatilityInTimeRange_of_young
    (h : db.tokenRates.filter (start ≤ ·.timestamp) = db'.tokenRates.filter (start ≤ ·.timestamp))
    (stop : Time) (quote : TokenAccount) :
    db.getByVolatilityInTimeRange start stop quote =
      db'.getByVolatilityInTimeRange start stop quote := by
  have hrows : (db.tokenRates.filter fun rate ↦
      rate.quote = quote ∧ start ≤ rate.timestamp ∧ rate.timestamp ≤ stop) =
      db'.tokenRates.filter fun rate ↦
        rate.quote = quote ∧ start ≤ rate.timestamp ∧ rate.timestamp ≤ stop :=
    filter_of_young h fun rate hrate ↦ (of_decide_eq_true hrate).2.1
  simp only [Database.getByVolatilityInTimeRange, hrows]

theorem argmax_filter_le {α : Type} (f : α → Time) (start : Time) {l : List α}
    (h : ∃ a ∈ l, start ≤ f a) : (l.filter (start ≤ f ·)).argmax f = l.argmax f := by
  induction l using List.reverseRecOn with
  | nil => simp at h
  | append_singleton l a ih =>
    by_cases hl : ∃ b ∈ l, start ≤ f b
    · have hl' := ih hl
      by_cases ha : start ≤ f a
      · rw [List.filter_append, List.filter_singleton, decide_eq_true ha, cond_true,
          List.argmax_concat, List.argmax_concat, hl']
      · obtain ⟨b, hb, hyoung⟩ := hl
        rw [List.filter_append, List.filter_singleton, decide_eq_false ha, cond_false,
          List.append_nil, hl', List.argmax_concat]
        cases hmax : l.argmax f with
        | none =>
          rw [List.argmax_eq_none.1 hmax] at hb
          cases hb
        | some c =>
          have hle : f b ≤ f c := List.le_of_mem_argmax hb hmax
          have hlt : ¬ f c < f a := fun hlt ↦ ha ((hyoung.trans hle).trans hlt.le)
          simp only [if_neg hlt]
    · have hold : ∀ b ∈ l, ¬ start ≤ f b := fun b hb hyoung ↦ hl ⟨b, hb, hyoung⟩
      have ha : start ≤ f a := by
        obtain ⟨b, hb, hyoung⟩ := h
        rcases List.mem_append.1 hb with hb | hb
        · exact absurd hyoung (hold b hb)
        · exact List.mem_singleton.1 hb ▸ hyoung
      have hnil : l.filter (start ≤ f ·) = [] :=
        List.filter_eq_nil_iff.2 fun b hb hyoung ↦ hold b hb (of_decide_eq_true hyoung)
      rw [List.filter_append, hnil, List.nil_append, List.filter_singleton, decide_eq_true ha,
        cond_true, List.argmax_concat]
      cases hmax : l.argmax f with
      | none => rfl
      | some c =>
        have hlt : f c < f a := (not_le.1 (hold c (List.argmax_mem hmax))).trans_le ha
        simp only [if_pos hlt]
        rfl

theorem getLatestRate_of_young
    (h : db.tokenRates.filter (start ≤ ·.timestamp) = db'.tokenRates.filter (start ≤ ·.timestamp))
    {base quote : TokenAccount}
    (hyoung : ∃ rate ∈ db'.tokenRates, (rate.base = base ∧ rate.quote = quote) ∧
      start ≤ rate.timestamp) :
    db.getLatestRate base quote = db'.getLatestRate base quote := by
  obtain ⟨rate, hrate, hpair, hle⟩ := hyoung
  have hmem : rate ∈ db.tokenRates := by
    have hfiltered : rate ∈ db'.tokenRates.filter (start ≤ ·.timestamp) :=
      List.mem_filter.2 ⟨hrate, decide_eq_true hle⟩
    rw [← h] at hfiltered
    exact (List.mem_filter.1 hfiltered).1
  have hselected {l : List TokenRate} (hl : rate ∈ l) :
      ∃ r ∈ l.filter (fun r ↦ r.base = base ∧ r.quote = quote), start ≤ r.timestamp :=
    ⟨rate, List.mem_filter.2 ⟨hl, decide_eq_true hpair⟩, hle⟩
  rw [Database.getLatestRate, Database.getLatestRate,
    ← argmax_filter_le _ start (hselected hmem), ← argmax_filter_le _ start (hselected hrate),
    List.filter_comm, h, List.filter_comm]

end Reads

/-- Rates that no configured retention may delete yet are read as if nothing was ever deleted,
whenever the cleanups in the background run. -/
theorem reads_after_run (s : Upkeep) (actions : List StoreAction) (days : ℕ)
    (hspawned : ∀ cleanup ∈ s.spawned, cleanup.Keeps days)
    (hactions : ∀ action ∈ actions, action.Keeps days) (start : Time)
    (hstart : (s.run actions).now - days * day ≤ start) :
    let recorded := { s.db with
      tokenRates := s.db.tokenRates ++ actions.flatMap StoreAction.rates }
    let db := (s.run actions).db
    (∀ stop base quote, db.getRatesInTimeRange start stop base quote =
      recorded.getRatesInTimeRange start stop base quote) ∧
    (∀ stop quote, db.getByVolatilityInTimeRange start stop quote =
      recorded.getByVolatilityInTimeRange start stop quote) ∧
    ∀ base quote, (∃ rate ∈ recorded.tokenRates, (rate.base = base ∧ rate.quote = quote) ∧
        start ≤ rate.timestamp) →
      db.getLatestRate base quote = recorded.getLatestRate base quote := by
  intro recorded db
  have hyoung : db.tokenRates.filter (start ≤ ·.timestamp) =
      recorded.tokenRates.filter (start ≤ ·.timestamp) :=
    tokenRates_run hspawned hactions hstart
  refine ⟨?_, ?_, ?_⟩
  · exact getRatesInTimeRange_of_young hyoung
  · exact getByVolatilityInTimeRange_of_young hyoung
  · intro base quote h
    exact getLatestRate_of_young hyoung h

def twoAges : List TokenRate :=
  [⟨⟨"usdt"⟩, ⟨"wrap.near"⟩, ⟨3, 6⟩, 0, 10, none⟩,
    ⟨⟨"usdt"⟩, ⟨"wrap.near"⟩, ⟨4, 6⟩, 364 * day, 10, none⟩]

theorem reads_after_run_twoAges :
    let s : Upkeep := ⟨365 * day, ⟨[], [], [], [], [], []⟩, []⟩
    let db := (s.run [.batchInsert twoAges 1, .tick 5, .cleanup 0]).db
    db.tokenRates.length = 1 ∧
      db.getLatestRate ⟨"usdt"⟩ ⟨"wrap.near"⟩ =
        Database.getLatestRate ⟨[], twoAges, [], [], [], []⟩ ⟨"usdt"⟩ ⟨"wrap.near"⟩ := by
  intro s db
  have hreads := (reads_after_run s [.batchInsert twoAges 1, .tick 5, .cleanup 0] 7 (by simp [s])
    (by simp [StoreAction.Keeps, Cleanup.Keeps, TokenRate.minRetentionDays]) (360 * day)
    (by decide +kernel)).2.2
  refine ⟨by decide +kernel, hreads _ _ ⟨_, List.mem_cons_of_mem _ List.mem_cons_self, ?_⟩⟩
  exact ⟨⟨rfl, rfl⟩, by decide +kernel⟩

section Periods

/-- Transactions and holdings belong to periods that exist, and no two of these have the same
id. -/
structure Database.Referential (db : Database) : Prop where
  nodup : (db.evaluationPeriods.map (·.periodId)).Nodup
  transactions : ∀ tx ∈ db.tradeTransactions,
    tx.evaluationPeriodId ∈ db.evaluationPeriods.map (·.periodId)
  holdings : ∀ holding ∈ db.portfolioHoldings,
    holding.evaluationPeriodId ∈ db.evaluationPeriods.map (·.periodId)

structure SamePeriod (period period' : EvaluationPeriod) : Prop where
  periodId : period'.periodId = period.periodId
  startTime : period'.startTime = period.startTime
  initialValue : period'.initialValue = period.initialValue
  createdAt : period'.createdAt = period.createdAt

theorem SamePeriod.refl (period : EvaluationPeriod) : SamePeriod period period :=
  ⟨rfl, rfl, rfl, rfl⟩

theorem SamePeriod.trans {a b c : EvaluationPeriod} (h : SamePeriod a b) (h' : SamePeriod b c) :
    SamePeriod a c :=
  ⟨h'.periodId.trans h.periodId, h'.startTime.trans h.startTime,
    h'.initialValue.trans h.initialValue, h'.createdAt.trans h.createdAt⟩

structure KeepsPeriods (start : Time) (db db' : Database) : Prop where
  periods : ∀ period ∈ db.evaluationPeriods, start ≤ period.createdAt →
    ∃ period' ∈ db'.evaluationPeriods, SamePeriod period period'
  transactions : ∀ period ∈ db.evaluationPeriods, start ≤ period.createdAt →
    ∀ tx ∈ db.tradeTransactions, tx.evaluationPeriodId = period.periodId →
      tx ∈ db'.tradeTransactions
  holdings : ∀ period ∈ db.evaluationPeriods, start ≤ period.createdAt →
    ∀ holding ∈ db.portfolioHoldings, holding.evaluationPeriodId = period.periodId →
      holding ∈ db'.portfolioHoldings

variable {s : Upkeep} {start : Time} {db db' db'' : Database}

theorem KeepsPeriods.trans (h : KeepsPeriods start db db') (h' : KeepsPeriods start db' db'') :
    KeepsPeriods start db db'' where
  periods period hmem hyoung := by
    obtain ⟨period', hmem', hsame⟩ := h.periods period hmem hyoung
    obtain ⟨period'', hmem'', hsame'⟩ := h'.periods period' hmem' (hsame.createdAt ▸ hyoung)
    exact ⟨period'', hmem'', hsame.trans hsame'⟩
  transactions period hmem hyoung tx htx hperiod := by
    obtain ⟨period', hmem', hsame⟩ := h.periods period hmem hyoung
    exact h'.transactions period' hmem' (hsame.createdAt ▸ hyoung) tx
      (h.transactions period hmem hyoung tx htx hperiod) (hperiod.trans hsame.periodId.symm)
  holdings period hmem hyoung holding hholding hperiod := by
    obtain ⟨period', hmem', hsame⟩ := h.periods period hmem hyoung
    exact h'.holdings period' hmem' (hsame.createdAt ▸ hyoung) holding
      (h.holdings period hmem hyoung holding hholding hperiod) (hperiod.trans hsame.periodId.symm)

theorem keepsPeriods_of_subset (hperiods : db.evaluationPeriods ⊆ db'.evaluationPeriods)
    (htransactions : db.tradeTransactions ⊆ db'.tradeTransactions)
    (hholdings : db.portfolioHoldings ⊆ db'.portfolioHoldings) : KeepsPeriods start db db' where
  periods period hmem _ := ⟨period, hperiods hmem, .refl period⟩
  transactions _ _ _ _ htx _ := htransactions htx
  holdings _ _ _ _ hholding _ := hholdings hholding

theorem KeepsPeriods.refl (start : Time) (db : Database) : KeepsPeriods start db db :=
  keepsPeriods_of_subset (fun _ ↦ id) (fun _ ↦ id) fun _ ↦ id

theorem Database.Referential.cleanup (h : db.Referential) (cutoff : Time) :
    (db.cleanupOldRecords cutoff).Referential where
  nodup := h.nodup.sublist (List.filter_sublist.map _)
  transactions _ htx := of_decide_eq_true (List.mem_filter.1 htx).2
  holdings _ hholding := of_decide_eq_true (List.mem_filter.1 hholding).2

theorem keepsPeriods_cleanup {cutoff : Time} (hcutoff : cutoff ≤ start) :
    KeepsPeriods start db (db.cleanupOldRecords cutoff) := by
  have hkept {period : EvaluationPeriod} (hmem : period ∈ db.evaluationPeriods)
      (hyoung : start ≤ period.createdAt) :
      period ∈ (db.cleanupOldRecords cutoff).evaluationPeriods :=
    List.mem_filter.2 ⟨hmem, decide_eq_true (hcutoff.trans hyoung)⟩
  refine ⟨?_, ?_, ?_⟩
  · intro period hmem hyoung
    exact ⟨period, hkept hmem hyoung, .refl period⟩
  · intro period hmem hyoung tx htx hperiod
    refine List.mem_filter.2 ⟨htx, decide_eq_true ?_⟩
    exact hperiod ▸ List.mem_map_of_mem (hkept hmem hyoung)
  · intro period hmem hyoung holding hholding hperiod
    refine List.mem_filter.2 ⟨hholding, decide_eq_true ?_⟩
    exact hperiod ▸ List.mem_map_of_mem (hkept hmem hyoung)

theorem periods_cleanup_run {now : Time} (h : db.Referential) (cleanup : Cleanup)
    (hstart : now - EvaluationPeriod.minRetentionDays * day ≤ start) :
    (cleanup.run now db).Referential ∧ KeepsPeriods start db (cleanup.run now db) := by
  cases cleanup with
  | tokenRates retentionDays =>
    rw [Cleanup.run, TokenRate.cleanupOldRecords]
    split
    · exact ⟨h, .refl start db⟩
    · exact ⟨⟨h.nodup, h.transactions, h.holdings⟩,
        keepsPeriods_of_subset (fun _ ↦ id) (fun _ ↦ id) fun _ ↦ id⟩
  | evaluationPeriods retentionDays =>
    rw [Cleanup.run, EvaluationPeriod.cleanupOldRecords, cutoffDate]
    split_ifs
    · exact ⟨h, .refl start db⟩
    · refine ⟨h.cleanup _, keepsPeriods_cleanup (le_trans (sub_le_sub_left ?_ now) hstart)⟩
      refine mul_le_mul_of_nonneg_right ?_ (by decide)
      exact_mod_cast le_max_right retentionDays.toNat EvaluationPeriod.minRetentionDays

theorem periods_insertPeriod (h : db.Referential) (period : EvaluationPeriod) :
    (db.insertPeriod period).2.Referential ∧ KeepsPeriods start db (db.insertPeriod period).2 := by
  rw [Database.insertPeriod]
  split_ifs with hknown
  · exact ⟨h, .refl start db⟩
  · have hsubset : db.evaluationPeriods ⊆ db.evaluationPeriods ++ [period] :=
      List.subset_append_left _ _
    have hids {id : String} (hid : id ∈ db.evaluationPeriods.map (·.periodId)) :
        id ∈ (db.evaluationPeriods ++ [period]).map (·.periodId) := List.map_subset _ hsubset hid
    refine ⟨⟨?_, fun tx htx ↦ hids (h.transactions tx htx),
      fun holding hholding ↦ hids (h.holdings holding hholding)⟩,
      keepsPeriods_of_subset hsubset (fun _ ↦ id) fun _ ↦ id⟩
    dsimp only
    rw [List.map_append, List.map_singleton, List.nodup_append']
    exact ⟨h.nodup, List.nodup_singleton _, List.disjoint_singleton.2 hknown⟩

theorem periods_map (h : db.Referential) (f : EvaluationPeriod → EvaluationPeriod)
    (hf : ∀ period, SamePeriod period (f period)) :
    ({ db with evaluationPeriods := db.evaluationPeriods.map f } : Database).Referential ∧
      KeepsPeriods start db { db with evaluationPeriods := db.evaluationPeriods.map f } := by
  have hids : (db.evaluationPeriods.map f).map (·.periodId) =
      db.evaluationPeriods.map (·.periodId) := by
    rw [List.map_map]
    exact List.map_congr_left fun period _ ↦ (hf period).periodId
  constructor
  · refine ⟨?_, ?_, ?_⟩ <;> dsimp only <;> rw [hids]
    exacts [h.nodup, h.transactions, h.holdings]
  · refine ⟨fun period hmem _ ↦ ⟨f period, List.mem_map_of_mem hmem, hf period⟩, ?_, ?_⟩
    · exact fun _ _ _ _ htx _ ↦ htx
    · exact fun _ _ _ _ hholding _ ↦ hholding

theorem periods_updateSelectedTokens (h : db.Referential) (periodId : String)
    (tokens : List String) :
    (db.updateSelectedTokens periodId tokens).2.Referential ∧
      KeepsPeriods start db (db.updateSelectedTokens periodId tokens).2 := by
  rw [Database.updateSelectedTokens]
  split
  · refine periods_map h _ fun period ↦ ?_
    split <;> exact ⟨rfl, rfl, rfl, rfl⟩
  · exact ⟨h, .refl start db⟩

theorem periods_step (h : s.db.Referential) (action : StoreAction)
    (hstart : s.now - EvaluationPeriod.minRetentionDays * day ≤ start) :
    (s.step action).db.Referential ∧ KeepsPeriods start s.db (s.step action).db := by
  cases action with
  | tick d => exact ⟨h, .refl start s.db⟩
  | batchInsert rates retentionDays =>
    simp only [Upkeep.step]
    split_ifs
    · exact ⟨h, .refl start s.db⟩
    · exact ⟨⟨h.nodup, h.transactions, h.holdings⟩,
        keepsPeriods_of_subset (fun _ ↦ id) (fun _ ↦ id) fun _ ↦ id⟩
  | startPeriod period retentionDays =>
    have hinsert : (s.db.insertPeriod { period with createdAt := s.now }).2.Referential ∧
        KeepsPeriods start s.db (s.db.insertPeriod { period with createdAt := s.now }).2 :=
      periods_insertPeriod h _
    simp only [Upkeep.step]
    split
    · next heq => rwa [heq] at hinsert
    · next heq => rwa [heq] at hinsert
  | selectTokens periodId tokens => exact periods_updateSelectedTokens h periodId tokens
  | insertTransaction tx =>
    change (s.db.insertTransaction tx).2.Referential ∧ _
    simp only [Upkeep.step, Database.insertTransaction]
    split_ifs with hrefused
    · exact ⟨h, .refl start s.db⟩
    · rw [not_or, not_not] at hrefused
      refine ⟨⟨h.nodup, ?_, h.holdings⟩,
        keepsPeriods_of_subset (fun _ ↦ id) (List.subset_append_left _ _) fun _ ↦ id⟩
      exact List.forall_mem_append.2 ⟨h.transactions, List.forall_mem_singleton.2 hrefused.2⟩
  | insertHolding holding =>
    change (s.db.insertHolding holding).2.Referential ∧ _
    simp only [Upkeep.step, Database.insertHolding]
    split_ifs with hperiod
    · refine ⟨⟨h.nodup, h.transactions, ?_⟩,
        keepsPeriods_of_subset (fun _ ↦ id) (fun _ ↦ id) (List.subset_append_left _ _)⟩
      exact List.forall_mem_append.2 ⟨h.holdings, List.forall_mem_singleton.2 hperiod⟩
    · exact ⟨h, .refl start s.db⟩
  | cleanup index =>
    simp only [Upkeep.step]
    split
    · exact ⟨h, .refl start s.db⟩
    · next cleanup _ => exact periods_cleanup_run h cleanup hstart

theorem periods_run (h : s.db.Referential) (actions : List StoreAction)
    (hstart : (s.run actions).now - EvaluationPeriod.minRetentionDays * day ≤ start) :
    (s.run actions).db.Referential ∧ KeepsPeriods start s.db (s.run actions).db := by
  induction actions generalizing s with
  | nil => exact ⟨h, .refl start s.db⟩
  | cons action actions ih =>
    have hnow : s.now - EvaluationPeriod.minRetentionDays * day ≤ start :=
      (sub_le_sub_right (now_le_run s (action :: actions)) _).trans hstart
    obtain ⟨hvalid, hkeeps⟩ := periods_step h action hnow
    obtain ⟨hvalid', hkeeps'⟩ := ih hvalid hstart
    exact ⟨hvalid', hkeeps.trans hkeeps'⟩

/-- Whatever is written and whenever the cleanups run, every transaction and every holding has its
period, and in its first 30 days a period is not lost, nor is anything that belongs to it. -/
theorem periods_after_run (s : Upkeep) (h : s.db.Referential) (actions : List StoreAction) :
    (s.run actions).db.Referential ∧
    ∀ period ∈ s.db.evaluationPeriods,
      (s.run actions).now - EvaluationPeriod.minRetentionDays * day ≤ period.createdAt →
      (∃ period' ∈ (s.run actions).db.evaluationPeriods, SamePeriod period period') ∧
      (∀ tx ∈ s.db.tradeTransactions, tx.evaluationPeriodId = period.periodId →
        tx ∈ (s.run actions).db.tradeTransactions) ∧
      ∀ holding ∈ s.db.portfolioHoldings, holding.evaluationPeriodId = period.periodId →
        holding ∈ (s.run actions).db.portfolioHoldings := by
  refine ⟨(periods_run h actions le_rfl).1, fun period hmem hyoung ↦ ?_⟩
  have hkeeps := (periods_run h actions hyoung).2
  exact ⟨hkeeps.periods period hmem le_rfl, hkeeps.transactions period hmem le_rfl,
    hkeeps.holdings period hmem le_rfl⟩

def twoPeriods : Database where
  poolInfo := []
  tokenRates := []
  predictionRecords := []
  evaluationPeriods := [⟨"eval_old", 0, 100, none, 0⟩, ⟨"eval_new", 0, 100, none, 360 * day⟩]
  tradeTransactions := [⟨"tx1", "batch1", ⟨"wrap.near"⟩, 5, ⟨"usdt"⟩, 7, 0, "eval_old", none⟩,
    ⟨"tx2", "batch2", ⟨"wrap.near"⟩, 5, ⟨"usdt"⟩, 7, 360 * day, "eval_new", none⟩]
  portfolioHoldings := []

theorem periods_after_run_twoPeriods :
    let s : Upkeep := ⟨365 * day, twoPeriods, [.evaluationPeriods 1]⟩
    let db := (s.run [.cleanup 0]).db
    db.Referential ∧ db.tradeTransactions.length = 1 ∧
      ∃ period ∈ db.evaluationPeriods, period.periodId = "eval_new" := by
  intro s db
  have hreferential : s.db.Referential := by
    refine ⟨by decide, ?_, ?_⟩ <;> simp [s, twoPeriods]
  obtain ⟨h, hyoung⟩ := periods_after_run s hreferential [.cleanup 0]
  obtain ⟨⟨period, hmem, hsame⟩, -⟩ := hyoung ⟨"eval_new", 0, 100, none, 360 * day⟩
    (by simp [s, twoPeriods]) (by decide +kernel)
  exact ⟨h, by decide +kernel, period, hmem, hsame.periodId⟩

end Periods

end Zaciraci.Persistence
