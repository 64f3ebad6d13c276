import Zaciraci.Lib.Loop
import Zaciraci.Trade.PredictionCycle

namespace Zaciraci.Simulate

open Lib Persistence Trade

section Model

/-- The start of a date, which is the number of its day. -/
def midnight (date : ℤ) : Time := date * day

structure RunArgs where
  startDate : ℤ
  endDate : ℤ
  rebalanceIntervalDays : ℤ
  generatePredictions : Bool

/-- What the generation of one day's predictions meets: the pending rows can be read or not, the
tokens that are selected, if they are, and the time at which rows are inserted. -/
structure DayEnv where
  toleranceMinutes : ℤ
  readable : Bool
  clock : ℤ → Time
  tokens : Option (List TokenAccount)
  service : PredictionService
  schedule : ChunkSchedule
  stored : Bool
  now : Time

def evaluateAsOf (env : DayEnv) (db : Database) (asOf : Time) (table : PredictionTable) :
    PredictionTable :=
  if env.readable then
    (evaluatePredictionsAsOf env.service.toF64 env.toleranceMinutes db.tokenRates env.clock asOf
      table).2
  else table

/-- One day of `generate_predictions_for_range`, with whether it succeeded. -/
def generateDay (env : ℤ → DayEnv) (db : Database) (state : ℕ × PredictionTable) (date : ℤ) :
    Option (ℕ × PredictionTable) :=
  let env := env date
  let table := evaluateAsOf env db (midnight date) state.2
  match env.tokens with
  | none => some (state.1, table)
  | some tokens =>
    let service := { env.service with asOf := midnight date }
    (service.runPredictionCycle env.schedule db env.stored env.now tokens table).map fun
      | (.ok _, table) => (state.1 + 1, table)
      | (.error _, table) => (state.1, table)

def dates (start stop : ℤ) : List ℤ := (List.range (stop + 1 - start).toNat).map (start + ·)

/-- The rows are deleted by the time they are for, then generated day by day. -/
def generatePredictionsForRange (env : ℤ → DayEnv) (db : Database) (startDate endDate : ℤ)
    (table : PredictionTable) : Option (Except String Unit × PredictionTable) :=
  if endDate < startDate then
    some (.error s!"invalid date range: start_date ({startDate}) > end_date ({endDate})", table)
  else
    let buffer := predictionHorizonHours * hour
    match table.deleteByTargetTimeRange (midnight startDate) (midnight endDate + buffer) with
    | .error e => some (.error e, table)
    | .ok (_, table) => do
      let (successCount, table) ← (dates startDate endDate).foldlM (generateDay env db) (0, table)
      let table := evaluateAsOf (env (endDate + 1)) db (midnight (endDate + 1) + buffer) table
      if successCount = 0 then
        let failCount := (dates startDate endDate).length
        some (.error s!"all prediction generation days failed ({failCount} days)", table)
      else some (.ok (), table)

variable {σ : Type}

/-- One round of the loop of `run_simulation`. The trading cycle and the snapshot of a day change
the state whether they fail or not. -/
def simulationRound (args : RunArgs) (table : PredictionTable) (cycle : Time → σ → σ)
    (s : ℤ × σ) : Round (Option σ) (ℤ × σ) :=
  if s.1 ≤ args.endDate then
    let next := s.1 + args.rebalanceIntervalDays
    match table.earliestFreshVisibleIn (midnight s.1) (midnight (s.1 + 1)) with
    | some simDay => .again (next, cycle simDay s.2)
    | none => .again (next, s.2)
  else .leave (some s.2)

/-- The generation that may come first, the loop, and the liquidation that follows it. A loop that
does not come closer to the end date never ends, which is `none`. -/
def runSimulation (env : ℤ → DayEnv) (db : Database) (args : RunArgs) (table : PredictionTable)
    (cycle liquidate : Time → σ → σ) (s : σ) : Option (Except String σ) :=
  if args.endDate ≤ args.startDate then
    some (.error s!"start-date must be before end-date: {args.startDate} >= {args.endDate}")
  else do
    let (generated, table) ← if args.generatePredictions then
        generatePredictionsForRange env db args.startDate args.endDate table
      else some (.ok (), table)
    match generated with
    | .error e => some (.error e)
    | .ok () =>
      let endDay := midnight args.endDate + 86399 * second
      let s ← loop (simulationRound args table cycle) (fun _ ↦ none)
        ((args.endDate - args.startDate).toNat + 2) (args.startDate, s)
      some (.ok (liquidate endDay s))

end Model

section Days

variable {σ : Type}

def progression (interval stop start : ℤ) : List ℤ :=
  (List.range ((stop - start) / interval + 1).toNat).map fun k : ℕ ↦ start + k * interval

variable {interval stop start : ℤ}

theorem progression_of_lt (hinterval : 0 < interval) (h : stop < start) :
    progression interval stop start = [] := by
  have hneg : (stop - start) / interval < 0 := Int.ediv_neg_of_neg_of_pos (by omega) hinterval
  have hzero : ((stop - start) / interval + 1).toNat = 0 := by omega
  rw [progression, hzero]
  rfl

theorem progression_of_le (hinterval : 0 < interval) (h : start ≤ stop) :
    progression interval stop start = start :: progression interval stop (start + interval) := by
  have hnonneg : 0 ≤ (stop - start) / interval := Int.ediv_nonneg (by omega) hinterval.le
  have hdiv : (stop - (start + interval)) / interval = (stop - start) / interval - 1 := by
    have heq : stop - (start + interval) = stop - start + -1 * interval := by ring
    rw [heq, Int.add_mul_ediv_right _ _ hinterval.ne']
    rfl
  have hcount : ((stop - start) / interval + 1).toNat =
      ((stop - (start + interval)) / interval + 1).toNat + 1 := by omega
  rw [progression, progression, hcount, List.range_succ_eq_map, List.map_cons, List.map_map]
  congr 1
  · simp
  · apply List.map_congr_left
    intro k _
    simp only [Function.comp_apply, Nat.succ_eq_add_one]
    push_cast
    ring

theorem pairwise_progression (hinterval : 0 < interval) :
    (progression interval stop start).Pairwise (· < ·) := by
  rw [progression, List.pairwise_map]
  apply List.pairwise_lt_range.imp
  intro i j hij
  have hmul : (i : ℤ) * interval < j * interval := by
    apply mul_lt_mul_of_pos_right _ hinterval
    exact_mod_cast hij
  omega

def simDay (table : PredictionTable) (date : ℤ) : Option Time :=
  table.earliestFreshVisibleIn (midnight date) (midnight (date + 1))

def simulationDays (args : RunArgs) (table : PredictionTable) : List Time :=
  (progression args.rebalanceIntervalDays args.endDate args.startDate).filterMap (simDay table)

theorem midnight_le {date date' : ℤ} (h : date ≤ date') : midnight date ≤ midnight date' :=
  mul_le_mul_of_nonneg_right h (by decide)

theorem simDay_def (table : PredictionTable) (date : ℤ) :
    simDay table date = ((table.records.filter fun r ↦ midnight date ≤ r.createdAt ∧
      r.createdAt < midnight (date + 1) ∧ r.createdAt < r.targetTime).map (·.createdAt)).min? := by
  have hspan : midnight date < midnight (date + 1) := by
    rw [midnight, midnight]
    exact mul_lt_mul_of_pos_right (lt_add_one date) (by decide)
  rw [simDay, PredictionTable.earliestFreshVisibleIn, if_neg (not_le.2 hspan)]

variable {table : PredictionTable} {date : ℤ}

theorem simDay_eq_some {t : Time} :
    simDay table date = some t ↔
      (∃ r ∈ table.records, r.createdAt = t ∧ midnight date ≤ t ∧ t < midnight (date + 1) ∧
        t < r.targetTime) ∧
      ∀ r ∈ table.records, midnight date ≤ r.createdAt → r.createdAt < midnight (date + 1) →
        r.createdAt < r.targetTime → t ≤ r.createdAt := by
  rw [simDay_def, List.min?_eq_some_iff]
  simp only [List.mem_map, List.mem_filter, decide_eq_true_eq]
  constructor
  · rintro ⟨⟨r, ⟨hr, hfrom, hto, hfresh⟩, rfl⟩, hmin⟩
    refine ⟨⟨r, hr, rfl, hfrom, hto, hfresh⟩, fun q hq hqfrom hqto hqfresh ↦ ?_⟩
    exact hmin _ ⟨q, ⟨hq, hqfrom, hqto, hqfresh⟩, rfl⟩
  · rintro ⟨⟨r, hr, rfl, hfrom, hto, hfresh⟩, hmin⟩
    refine ⟨⟨r, ⟨hr, hfrom, hto, hfresh⟩, rfl⟩, ?_⟩
    rintro _ ⟨q, ⟨hq, hqfrom, hqto, hqfresh⟩, rfl⟩
    exact hmin q hq hqfrom hqto hqfresh

theorem simDay_eq_none :
    simDay table date = none ↔
      ∀ r ∈ table.records, midnight date ≤ r.createdAt → r.createdAt < midnight (date + 1) →
        ¬ r.createdAt < r.targetTime := by
  rw [simDay_def, List.min?_eq_none_iff, List.map_eq_nil_iff, List.filter_eq_nil_iff]
  simp only [decide_eq_true_eq, not_and]

def visit (table : PredictionTable) (cycle : Time → σ → σ) (date : ℤ) (s : σ) : σ :=
  (simDay table date).elim s (cycle · s)

variable {args : RunArgs} {cycle : Time → σ → σ}

theorem simulationRound_of_le (hdate : date ≤ args.endDate) (s : σ) :
    simulationRound args table cycle (date, s) =
      .again (date + args.rebalanceIntervalDays, visit table cycle date s) := by
  rw [simulationRound, if_pos hdate, visit, simDay]
  cases table.earliestFreshVisibleIn (midnight date) (midnight (date + 1)) <;> rfl

theorem loop_simulationRound (hinterval : 0 < args.rebalanceIntervalDays) {k : ℕ}
    (hk : (args.endDate + 1 - date).toNat < k) (s : σ) :
    loop (simulationRound args table cycle) (fun _ ↦ none) k (date, s) =
      some (((progression args.rebalanceIntervalDays args.endDate date).filterMap
        (simDay table)).foldl (fun s t ↦ cycle t s) s) := by
  -- every round moves the date on by a day or more, so `hk` is kept
  induction k generalizing date s with
  | zero => exact absurd hk (Nat.not_lt_zero _)
  | succ k ih =>
    by_cases hdate : date ≤ args.endDate
    · rw [loop_of_again (simulationRound_of_le hdate s), ih (by omega),
        progression_of_le hinterval hdate, visit]
      cases hday : simDay table date with
      | none => rw [List.filterMap_cons_none hday, Option.elim_none]
      | some t => rw [List.filterMap_cons_some hday, Option.elim_some, List.foldl_cons]
    · rw [progression_of_lt hinterval (not_le.1 hdate)]
      apply loop_of_leave
      rw [simulationRound, if_neg hdate]
      rfl

theorem loop_simulationRound_stuck (hinterval : args.rebalanceIntervalDays ≤ 0)
    (hdate : date ≤ args.endDate) (k : ℕ) (s : σ) :
    loop (simulationRound args table cycle) (fun _ ↦ none) k (date, s) = none := by
  induction k generalizing date s with
  | zero => rfl
  | succ k ih => rw [loop_of_again (simulationRound_of_le hdate s), ih (by omega)]

theorem loop_days (hinterval : 0 < args.rebalanceIntervalDays)
    (hdates : args.startDate < args.endDate) (table : PredictionTable) (cycle : Time → σ → σ)
    (s : σ) :
    loop (simulationRound args table cycle) (fun _ ↦ none)
        ((args.endDate - args.startDate).toNat + 2) (args.startDate, s) =
      some ((simulationDays args table).foldl (fun s t ↦ cycle t s) s) :=
  loop_simulationRound hinterval (by omega) s

theorem pairwise_simulationDays (hinterval : 0 < args.rebalanceIntervalDays)
    (table : PredictionTable) : (simulationDays args table).Pairwise (· < ·) := by
  apply (pairwise_progression hinterval).filterMap
  intro date date' hlt t ht t' ht'
  obtain ⟨⟨-, -, -, -, hto, -⟩, -⟩ := simDay_eq_some.1 ht
  obtain ⟨⟨-, -, -, hfrom, -⟩, -⟩ := simDay_eq_some.1 ht'
  exact hto.trans_le ((midnight_le (Int.add_one_le_iff.2 hlt)).trans hfrom)

theorem runSimulation_eq (env : ℤ → DayEnv) (db : Database) (hdates : args.startDate < args.endDate)
    (hgenerate : args.generatePredictions = false) (hinterval : 0 < args.rebalanceIntervalDays)
    (table : PredictionTable) (cycle liquidate : Time → σ → σ) (s : σ) :
    runSimulation env db args table cycle liquidate s =
      some (.ok (liquidate (midnight args.endDate + 86399 * second)
        ((simulationDays args table).foldl (fun s t ↦ cycle t s) s))) := by
  simp only [runSimulation, if_neg (not_le.2 hdates), hgenerate, loop_days hinterval hdates]
  rfl

/-- A simulation runs the cycle once on each date of its interval on which a prediction is made
for later, at the first time that happens, and in the order of time. Without a positive interval it
does not come to a result. -/
theorem runSimulation_days (env : ℤ → DayEnv) (db : Database) (args : RunArgs)
    (hdates : args.startDate < args.endDate) (hgenerate : args.generatePredictions = false)
    (table : PredictionTable) (cycle liquidate : Time → σ → σ) (s : σ) :
    (args.rebalanceIntervalDays ≤ 0 →
      runSimulation env db args table cycle liquidate s = none) ∧
    (0 < args.rebalanceIntervalDays → ∃ days : List Time,
      runSimulation env db args table cycle liquidate s =
        some (.ok (liquidate (midnight args.endDate + 86399 * second)
          (days.foldl (fun s t ↦ cycle t s) s))) ∧
      days.Pairwise (· < ·) ∧
      (∀ t ∈ days, ∃ date ∈ progression args.rebalanceIntervalDays args.endDate args.startDate,
        simDay table date = some t) ∧
      ∀ date ∈ progression args.rebalanceIntervalDays args.endDate args.startDate,
        ∀ r ∈ table.records, midnight date ≤ r.createdAt → r.createdAt < midnight (date + 1) →
          r.createdAt < r.targetTime → ∃ t ∈ days, midnight date ≤ t ∧ t ≤ r.createdAt) := by
  have hstart : ¬ args.endDate ≤ args.startDate := not_le.2 hdates
  constructor
  · intro hinterval
    simp only [runSimulation, if_neg hstart, hgenerate,
      loop_simulationRound_stuck hinterval hdates.le]
    rfl
  · intro hinterval
    refine ⟨simulationDays args table,
      runSimulation_eq env db hdates hgenerate hinterval table cycle liquidate s,
      pairwise_simulationDays hinterval table, fun t ↦ List.mem_filterMap.1, ?_⟩
    intro date hdate r hr hfrom hto hfresh
    cases hday : simDay table date with
    | none => exact absurd hfresh (simDay_eq_none.1 hday r hr hfrom hto)
    | some t =>
      obtain ⟨⟨-, -, -, hfrom', -⟩, hmin⟩ := simDay_eq_some.1 hday
      exact ⟨t, List.mem_filterMap.2 ⟨date, hdate, hday⟩, hfrom', hmin r hr hfrom hto hfresh⟩

def morningRow : DbPredictionRecord :=
  .ofNew 1 (11 * day + hour) ⟨"aurora", "wrap.near", 1, 11 * day, 12 * day⟩

def laterEnv (_ : ℤ) : DayEnv where
  toleranceMinutes := 30
  readable := true
  clock _ := 20 * day
  tokens := some [⟨"aurora"⟩]
  service := PredictionService.naive
  schedule := PredictionService.secondUnread
  stored := true
  now := 20 * day

theorem runSimulation_days_morningRow :
    ∃ days : List Time,
      runSimulation laterEnv PredictionService.twoRates ⟨10, 12, 1, false⟩ ⟨[morningRow], 2⟩
        (fun t days ↦ days ++ [t]) (fun _ days ↦ days) [] =
          some (.ok (days.foldl (fun days t ↦ days ++ [t]) [])) ∧
      ∃ t ∈ days, midnight 11 ≤ t ∧ t ≤ 11 * day + hour := by
  obtain ⟨days, hrun, -, -, hfresh⟩ := (runSimulation_days laterEnv PredictionService.twoRates
    ⟨10, 12, 1, false⟩ (by decide) rfl ⟨[morningRow], 2⟩ (fun t days ↦ days ++ [t])
    (fun _ days ↦ days) []).2 (by decide)
  exact ⟨days, hrun, hfresh 11 (by decide) morningRow (by simp) (by decide) (by decide) (by decide)⟩

end Days

section Generated

variable {σ : Type} {env : ℤ → DayEnv} {db : Database} {P : DbPredictionRecord → Prop}

theorem forall_evaluateAsOf (hP : ∀ r e now, P r → P (r.evaluated e now)) {day : DayEnv}
    {asOf : Time} {table : PredictionTable} (h : ∀ r ∈ table.records, P r) :
    ∀ r ∈ (evaluateAsOf day db asOf table).records, P r := by
  rw [evaluateAsOf]
  split_ifs
  · rw [evaluatePredictionsAsOf]
    refine List.foldlRecOn (motive := fun state : ℕ × PredictionTable ↦
      ∀ r ∈ state.2.records, P r) _ _ h ?_
    rintro ⟨count, table⟩ htable record -
    dsimp only
    split
    · intro r hr
      obtain ⟨q, hq, rfl⟩ := List.mem_map.1 hr
      split_ifs
      · exact hP q _ _ (htable q hq)
      · exact htable q hq
    · exact htable
  · exact h

theorem mem_of_runPredictionCycle {service : PredictionService} {schedule : ChunkSchedule}
    {stored : Bool} {now : Time} {tokens : List TokenAccount} {table table' : PredictionTable}
    {outcome : Except String ℕ}
    (h : service.runPredictionCycle schedule db stored now tokens table = some (outcome, table')) :
    ∀ r ∈ table'.records, r ∈ table.records ∨ r.createdAt = now := by
  obtain ⟨entries, -, hrecord⟩ := Option.map_eq_some_iff.1 h
  intro r hr
  rw [PredictionService.recordEntries] at hrecord
  split_ifs at hrecord <;> cases hrecord
  · exact .inl hr
  · rcases List.mem_append.1 hr with hr | hr
    · exact .inl hr
    · obtain ⟨i, hi, rfl⟩ := List.mem_mapIdx.1 hr
      exact .inr rfl
  · exact .inl hr

theorem forall_generateDay (hP : ∀ r e now, P r → P (r.evaluated e now)) {date : ℤ}
    (hnew : ∀ r, r.createdAt = (env date).now → P r) {state state' : ℕ × PredictionTable}
    (h : generateDay env db state date = some state') (hstate : ∀ r ∈ state.2.records, P r) :
    ∀ r ∈ state'.2.records, P r := by
  have heval : ∀ r ∈ (evaluateAsOf (env date) db (midnight date) state.2).records, P r :=
    forall_evaluateAsOf hP hstate
  rw [generateDay] at h
  dsimp only at h
  split at h
  · cases h
    exact heval
  · obtain ⟨⟨outcome, table'⟩, hrun, heq⟩ := Option.map_eq_some_iff.1 h
    have htable : state'.2 = table' := by
      cases outcome <;> cases heq <;> rfl
    intro r hr
    rw [htable] at hr
    obtain hold | hmade := mem_of_runPredictionCycle hrun r hr
    · exact heval r hold
    · exact hnew r hmade

theorem forall_generateDays (hP : ∀ r e now, P r → P (r.evaluated e now))
    (hnew : ∀ date r, r.createdAt = (env date).now → P r) {days : List ℤ}
    {state state' : ℕ × PredictionTable}
    (h : days.foldlM (generateDay env db) state = some state')
    (hstate : ∀ r ∈ state.2.records, P r) : ∀ r ∈ state'.2.records, P r := by
  induction days generalizing state with
  | nil =>
    cases h
    exact hstate
  | cons date days ih =>
    rw [List.foldlM_cons] at h
    obtain ⟨next, hday, hrest⟩ := Option.bind_eq_some_iff.1 h
    exact ih hrest (forall_generateDay hP (hnew date) hday hstate)

theorem forall_generatePredictionsForRange (hP : ∀ r e now, P r → P (r.evaluated e now))
    (hnew : ∀ date r, r.createdAt = (env date).now → P r) {startDate endDate : ℤ}
    (hdates : startDate ≤ endDate) {table table' : PredictionTable} {outcome : Except String Unit}
    (hkept : ∀ r ∈ table.records, ¬ (midnight startDate ≤ r.targetTime ∧
      r.targetTime ≤ midnight endDate + predictionHorizonHours * hour) → P r)
    (h : generatePredictionsForRange env db startDate endDate table = some (outcome, table')) :
    ∀ r ∈ table'.records, P r := by
  have hspan : ¬ midnight endDate + predictionHorizonHours * hour < midnight startDate := by
    have hbuffer : 0 ≤ predictionHorizonHours * hour := by decide
    exact not_lt.2 ((midnight_le hdates).trans (le_add_of_nonneg_right hbuffer))
  rw [generatePredictionsForRange, if_neg (not_lt.2 hdates)] at h
  simp only [PredictionTable.deleteByTargetTimeRange, if_neg hspan] at h
  obtain ⟨⟨successCount, generated⟩, hdays, hend⟩ := Option.bind_eq_some_iff.1 h
  have hgenerated : ∀ r ∈ generated.records, P r := by
    apply forall_generateDays hP hnew hdays
    intro r hr
    obtain ⟨hr, hout⟩ := List.mem_filter.1 hr
    exact hkept r hr (of_decide_eq_true hout)
  have htable' : table' = evaluateAsOf (env (endDate + 1)) db
      (midnight (endDate + 1) + predictionHorizonHours * hour) generated := by
    dsimp only at hend
    split_ifs at hend <;> cases hend <;> rfl
  rw [htable']
  exact forall_evaluateAsOf hP hgenerated

theorem bounds_of_mem_progression {interval stop start date : ℤ} (hinterval : 0 < interval)
    (h : date ∈ progression interval stop start) : start ≤ date ∧ date ≤ stop := by
  obtain ⟨k, hk, rfl⟩ := List.mem_map.1 h
  have hk' : (k : ℤ) ≤ (stop - start) / interval := by
    have hlt := List.mem_range.1 hk
    omega
  have hmul : k * interval ≤ stop - start :=
    (mul_le_mul_of_nonneg_right hk' hinterval.le).trans (Int.ediv_mul_le _ hinterval.ne')
  have hnonneg : 0 ≤ k * interval := mul_nonneg (Int.natCast_nonneg k) hinterval.le
  constructor <;> linarith

theorem simDay_generated {startDate endDate : ℤ} (hdates : startDate ≤ endDate)
    {table table' : PredictionTable} {outcome : Except String Unit}
    (hrows : ∀ r ∈ table.records, r.targetTime ≤ r.createdAt + predictionHorizonHours * hour)
    (hnow : ∀ date, midnight (endDate + 1) ≤ (env date).now)
    (h : generatePredictionsForRange env db startDate endDate table = some (outcome, table'))
    {date : ℤ} (hstart : startDate ≤ date) (hend : date < endDate) : simDay table' date = none := by
  let P (r : DbPredictionRecord) : Prop := midnight (endDate + 1) ≤ r.createdAt ∨
    r.targetTime ≤ r.createdAt + predictionHorizonHours * hour ∧
      ¬ (midnight startDate ≤ r.targetTime ∧
        r.targetTime ≤ midnight endDate + predictionHorizonHours * hour)
  have hrows' : ∀ r ∈ table'.records, P r := by
    refine forall_generatePredictionsForRange (P := P) (fun _ _ _ hr ↦ hr) ?_ hdates ?_ h
    · intro date r hr
      exact .inl (hr ▸ hnow date)
    · intro r hr hout
      exact .inr ⟨hrows r hr, hout⟩
  rw [simDay_eq_none]
  intro r hr hfrom hto hfresh
  have hto' : r.createdAt < midnight endDate :=
    hto.trans_le (midnight_le (Int.add_one_le_iff.2 hend))
  rcases hrows' r hr with hlate | ⟨hhorizon, hout⟩
  · exact absurd (hto'.trans_le ((midnight_le (Int.le_add_one le_rfl)).trans hlate)) (lt_irrefl _)
  · apply hout
    constructor
    · exact ((midnight_le hstart).trans hfrom).trans hfresh.le
    · linarith

theorem simDay_of_mem {args : RunArgs} (hinterval : 0 < args.rebalanceIntervalDays)
    {table : PredictionTable}
    (h : ∀ date, args.startDate ≤ date → date < args.endDate → simDay table date = none)
    {t : Time} (ht : t ∈ simulationDays args table) : simDay table args.endDate = some t := by
  obtain ⟨date, hdate, hday⟩ := List.mem_filterMap.1 ht
  obtain ⟨hfrom, hto⟩ := bounds_of_mem_progression hinterval hdate
  rcases hto.lt_or_eq with hlt | rfl
  · rw [h date hfrom hlt] at hday
    cases hday
  · exact hday

theorem length_simulationDays_le {args : RunArgs} (hinterval : 0 < args.rebalanceIntervalDays)
    {table : PredictionTable}
    (h : ∀ date, args.startDate ≤ date → date < args.endDate → simDay table date = none) :
    (simulationDays args table).length ≤ 1 := by
  have hpairwise := pairwise_simulationDays hinterval table
  have hlast {t : Time} := simDay_of_mem hinterval h (t := t)
  rcases hdays : simulationDays args table with - | ⟨t, - | ⟨t', rest⟩⟩
  · exact Nat.zero_le 1
  · exact le_rfl
  · rw [hdays] at hpairwise hlast
    have hlt := (List.pairwise_cons.1 hpairwise).1 t' List.mem_cons_self
    have heq := (hlast List.mem_cons_self).symm.trans (hlast (.tail t List.mem_cons_self))
    exact absurd (Option.some.inj heq) hlt.ne

/-- A past period that is simulated with predictions generated for it: those are made after the
period, and the ones made in it are deleted, so that at most its last date is traded on. -/
theorem runSimulation_generated (env : ℤ → DayEnv) (db : Database) (args : RunArgs)
    (hinterval : 0 < args.rebalanceIntervalDays) (hgenerate : args.generatePredictions = true)
    (table : PredictionTable)
    (hrows : ∀ r ∈ table.records, r.targetTime ≤ r.createdAt + predictionHorizonHours * hour)
    (hnow : ∀ date, midnight (args.endDate + 1) ≤ (env date).now)
    {cycle liquidate : Time → σ → σ} {s result : σ}
    (h : runSimulation env db args table cycle liquidate s = some (.ok result)) :
    ∃ days : List Time, days.length ≤ 1 ∧ (∀ t ∈ days, midnight args.endDate ≤ t) ∧
      result = liquidate (midnight args.endDate + 86399 * second)
        (days.foldl (fun s t ↦ cycle t s) s) := by
  rw [runSimulation, hgenerate, if_pos rfl] at h
  split_ifs at h with hstart
  · cases h
  have hdates : args.startDate < args.endDate := not_le.1 hstart
  obtain ⟨⟨outcome, table'⟩, hgenerated, h⟩ := Option.bind_eq_some_iff.1 h
  have hunseen (date : ℤ) (hfrom : args.startDate ≤ date) (hto : date < args.endDate) :
      simDay table' date = none :=
    simDay_generated hdates.le hrows hnow hgenerated hfrom hto
  cases outcome with
  | error e => cases h
  | ok =>
    obtain ⟨t, hloop, hresult⟩ := Option.bind_eq_some_iff.1 h
    rw [loop_days hinterval hdates] at hloop
    cases hloop
    cases hresult
    refine ⟨simulationDays args table', length_simulationDays_le hinterval hunseen, ?_, rfl⟩
    intro t ht
    obtain ⟨⟨-, -, -, hfrom, -⟩, -⟩ := simDay_eq_some.1 (simDay_of_mem hinterval hunseen ht)
    exact hfrom

theorem runSimulation_generated_later :
    ∃ result, runSimulation laterEnv PredictionService.twoRates ⟨10, 12, 1, true⟩
        ⟨[morningRow], 2⟩ (fun t days ↦ days ++ [t]) (fun _ days ↦ days) ([] : List Time) =
          some (.ok result) ∧
      ∃ days : List Time, days.length ≤ 1 ∧ (∀ t ∈ days, midnight 12 ≤ t) ∧
        result = days.foldl (fun days t ↦ days ++ [t]) [] := by
  have hok : ((runSimulation laterEnv PredictionService.twoRates ⟨10, 12, 1, true⟩
      ⟨[morningRow], 2⟩ (fun t days ↦ days ++ [t]) (fun _ days ↦ days) ([] : List Time)).bind
        Except.toOption).isSome := by decide +kernel
  obtain ⟨result, hresult⟩ := Option.isSome_iff_exists.1 hok
  obtain ⟨outcome, hrun, houtcome⟩ := Option.bind_eq_some_iff.1 hresult
  cases outcome with
  | error e => cases houtcome
  | ok =>
    cases houtcome
    have hrows : ∀ r ∈ [morningRow],
        r.targetTime ≤ r.createdAt + predictionHorizonHours * hour := by decide
    have hnow (date : ℤ) : midnight 13 ≤ (laterEnv date).now :=
      (by decide : midnight 13 ≤ 20 * day)
    exact ⟨result, hrun, runSimulation_generated laterEnv PredictionService.twoRates
      ⟨10, 12, 1, true⟩ (by decide) rfl ⟨[morningRow], 2⟩ hrows hnow hrun⟩

end Generated

end Zaciraci.Simulate
