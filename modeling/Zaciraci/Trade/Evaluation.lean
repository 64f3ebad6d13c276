import Zaciraci.Persistence.PredictionRecords
import Zaciraci.Trade.Confidence

namespace Zaciraci.Trade

open Lib Persistence

section Model

def second : Time := 10 ^ 9

def hour : Time := 3600 * second

def buildPredictionRecords (predictions : SortedMap TokenAccount (BigDecimal × Time))
    (quoteToken : TokenAccount) : List NewPredictionRecord :=
  predictions.entries.map fun (token, price, dataCutoffTime) ↦
    { token := toString token
      quoteToken := toString quoteToken
      predictedPrice := price
      dataCutoffTime
      targetTime := dataCutoffTime + predictionHorizonHours * hour }

def ratesOnly (rates : List TokenRate) : Database := ⟨[], rates, [], [], [], []⟩

def getActualPriceAt (rates : List TokenRate) (token quoteToken : TokenAccount) (targetTime : Time)
    (toleranceMinutes : ℤ) : Option BigDecimal :=
  let tolerance := toleranceMinutes * 60 * second
  let rates := (ratesOnly rates).getRatesInTimeRange (targetTime - tolerance)
    (targetTime + tolerance) token quoteToken
  ((TokenRate.toSpotRates rates).argmin fun x ↦ ((x.1 - targetTime).tdiv second).natAbs).map
    (·.2.toPrice)

variable (toF64 : BigDecimal → Option Float) (toleranceMinutes : ℤ)

def evaluationOf (rates : List TokenRate) (record : DbPredictionRecord) : Option Evaluation := do
  let token ← (parseToken record.token).toOption
  let quote ← (parseToken record.quoteToken).toOption
  let actual ← getActualPriceAt rates token quote record.targetTime toleranceMinutes
  if actual = 0 then none
  else
    let absoluteError := |record.predictedPrice - actual|
    let mape ← toF64 (BigDecimal.div absoluteError actual * 100)
    some ⟨actual, mape, absoluteError⟩

/-- The loop of `evaluate_predictions_as_of`, with the clock at each record's turn. -/
def evaluatePredictionsAsOf (rates : List TokenRate) (clock : ℤ → Time) (asOf : Time)
    (table : PredictionTable) : ℕ × PredictionTable :=
  (table.getPendingEvaluationsAsOf asOf).foldl (fun (evaluatedCount, table) record ↦
    match evaluationOf toF64 toleranceMinutes rates record with
    | some e => (evaluatedCount + 1, table.updateEvaluation record.id e (clock record.id))
    | none => (evaluatedCount, table)) (0, table)

end Model

section Evaluate

variable {toF64 : BigDecimal → Option Float} {toleranceMinutes : ℤ} {rates : List TokenRate}
  {clock : ℤ → Time} {asOf : Time} {table : PredictionTable} {rows : List DbPredictionRecord}

def settled (toF64 : BigDecimal → Option Float) (toleranceMinutes : ℤ) (rates : List TokenRate)
    (clock : ℤ → Time) (rows : List DbPredictionRecord) (r : DbPredictionRecord) :
    DbPredictionRecord :=
  match (rows.find? (·.id = r.id)).bind (evaluationOf toF64 toleranceMinutes rates) with
  | some e => r.evaluated e (clock r.id)
  | none => r

theorem settled_cons (q r : DbPredictionRecord) :
    settled toF64 toleranceMinutes rates clock (q :: rows) r =
      if q.id = r.id then
        match evaluationOf toF64 toleranceMinutes rates q with
        | some e => r.evaluated e (clock r.id)
        | none => r
      else settled toF64 toleranceMinutes rates clock rows r := by
  rw [settled, List.find?_cons]
  by_cases hid : q.id = r.id <;> simp [hid, settled]

theorem settled_of_notMem {r : DbPredictionRecord} (h : r.id ∉ rows.map (·.id)) :
    settled toF64 toleranceMinutes rates clock rows r = r := by
  have hnone : rows.find? (·.id = r.id) = none := by
    rw [List.find?_eq_none]
    intro q hq heq
    exact h (List.mem_map.2 ⟨q, hq, of_decide_eq_true heq⟩)
  rw [settled, hnone]
  rfl

theorem settled_of_mem {r : DbPredictionRecord} (hnodup : (rows.map (·.id)).Nodup) (h : r ∈ rows) :
    settled toF64 toleranceMinutes rates clock rows r =
      match evaluationOf toF64 toleranceMinutes rates r with
      | some e => r.evaluated e (clock r.id)
      | none => r := by
  induction rows with
  | nil => cases h
  | cons q rows ih =>
    rw [List.map_cons, List.nodup_cons] at hnodup
    rw [settled_cons]
    rcases List.mem_cons.1 h with rfl | h
    · rw [if_pos rfl]
    · rw [if_neg, ih hnodup.2 h]
      intro heq
      exact hnodup.1 (heq ▸ List.mem_map_of_mem h)

theorem foldl_evaluate (hnodup : (rows.map (·.id)).Nodup) (count : ℕ) (table : PredictionTable) :
    rows.foldl (fun (evaluatedCount, table) record ↦
      match evaluationOf toF64 toleranceMinutes rates record with
      | some e => (evaluatedCount + 1, table.updateEvaluation record.id e (clock record.id))
      | none => (evaluatedCount, table)) (count, table) =
    (count + rows.countP fun r ↦ (evaluationOf toF64 toleranceMinutes rates r).isSome,
      { table with
        records := table.records.map (settled toF64 toleranceMinutes rates clock rows) }) := by
  induction rows generalizing count table with
  | nil =>
    have hsettled : settled toF64 toleranceMinutes rates clock [] = id := rfl
    rw [hsettled, List.map_id]
    rfl
  | cons q rows ih =>
    rw [List.map_cons, List.nodup_cons] at hnodup
    rw [List.foldl_cons]
    cases heval : evaluationOf toF64 toleranceMinutes rates q with
    | some e =>
      -- the ids are distinct, so no later round writes this row again
      have hmap (r : DbPredictionRecord) :
          settled toF64 toleranceMinutes rates clock rows
            (if r.id = q.id then r.evaluated e (clock q.id) else r) =
          settled toF64 toleranceMinutes rates clock (q :: rows) r := by
        rw [settled_cons, heval]
        by_cases hid : r.id = q.id
        · rw [if_pos hid, if_pos hid.symm, ← hid]
          exact settled_of_notMem (hid ▸ hnodup.1)
        · rw [if_neg hid, if_neg (Ne.symm hid)]
      dsimp only
      rw [ih hnodup.2, List.countP_cons_of_pos (by rw [heval]; rfl),
        PredictionTable.updateEvaluation, List.map_map, add_right_comm, add_assoc]
      simp only [Function.comp_def, hmap]
    | none =>
      have hmap (r : DbPredictionRecord) (hr : q.id = r.id) :
          settled toF64 toleranceMinutes rates clock rows r =
            r := settled_of_notMem (hr ▸ hnodup.1)
      dsimp only
      rw [ih hnodup.2, List.countP_cons_of_neg (by rw [heval]; simp)]
      have hsettled : settled toF64 toleranceMinutes rates clock (q :: rows) =
          settled toF64 toleranceMinutes rates clock rows := by
        funext r
        rw [settled_cons, heval]
        split_ifs with hid
        · exact (hmap r hid).symm
        · rfl
      rw [hsettled]

/-- A call evaluates every pending row that can be evaluated, and leaves every other row alone. The
count is that of the rows it evaluated. -/
theorem evaluatePredictionsAsOf_eq (toF64 : BigDecimal → Option Float) (toleranceMinutes : ℤ)
    (rates : List TokenRate) (clock : ℤ → Time) (asOf : Time) (table : PredictionTable)
    (hnodup : (table.records.map (·.id)).Nodup) :
    let evaluable (r : DbPredictionRecord) : Option Evaluation :=
      if r.evaluatedAt = none ∧ r.targetTime ≤ asOf then
        evaluationOf toF64 toleranceMinutes rates r
      else none
    evaluatePredictionsAsOf toF64 toleranceMinutes rates clock asOf table =
      (table.records.countP fun r ↦ (evaluable r).isSome,
        { table with records := table.records.map fun r ↦
            match evaluable r with
            | some e => r.evaluated e (clock r.id)
            | none => r }) := by
  intro evaluable
  have hperm : (table.getPendingEvaluationsAsOf asOf).Perm (table.records.filter fun r ↦
      r.evaluatedAt.isNone ∧ r.targetTime ≤ asOf) := List.perm_insertionSort _ _
  have hpending : ((table.getPendingEvaluationsAsOf asOf).map (·.id)).Nodup :=
    (hperm.map _).nodup_iff.2 (hnodup.sublist (List.filter_sublist.map _))
  rw [evaluatePredictionsAsOf, foldl_evaluate hpending, zero_add, hperm.countP_eq,
    List.countP_filter]
  have hcount (r : DbPredictionRecord) :
      ((evaluationOf toF64 toleranceMinutes rates r).isSome &&
        decide (r.evaluatedAt.isNone ∧ r.targetTime ≤ asOf)) = (evaluable r).isSome := by
    simp only [evaluable, Option.isNone_iff_eq_none]
    split_ifs with hpending <;> simp [hpending]
  have hrow (r : DbPredictionRecord) (hr : r ∈ table.records) :
      settled toF64 toleranceMinutes rates clock (table.getPendingEvaluationsAsOf asOf) r =
        match evaluable r with
        | some e => r.evaluated e (clock r.id)
        | none => r := by
    simp only [evaluable]
    split_ifs with hdue
    · refine settled_of_mem hpending (hperm.mem_iff.2 (List.mem_filter.2 ⟨hr, ?_⟩))
      simpa using hdue
    · refine settled_of_notMem fun hmem ↦ hdue ?_
      obtain ⟨q, hq, hid⟩ := List.mem_map.1 hmem
      obtain ⟨hq, hdueq⟩ := List.mem_filter.1 (hperm.mem_iff.1 hq)
      obtain rfl := List.inj_on_of_nodup_map hnodup hq hr hid
      simpa using hdueq
  simp only [hcount]
  rw [List.map_congr_left hrow]

end Evaluate

def firstPrediction : DbPredictionRecord :=
  .ofNew 1 0 ⟨"aurora", "wrap.near", 2, 0, day⟩

/-- Of a row with a price, one without and one for a later time, the first is evaluated. -/
theorem evaluatePredictionsAsOf_eq_threeRecords :
    let rate : TokenRate := ⟨⟨"aurora"⟩, ⟨"wrap.near"⟩, ⟨10 ^ 18, 18⟩, day, 0, none⟩
    let table : PredictionTable :=
      ⟨[firstPrediction, { firstPrediction with id := 2, token := "usdt" },
        { firstPrediction with id := 3, targetTime := 3 * day }], 4⟩
    let (count, table') :=
      evaluatePredictionsAsOf (fun _ ↦ some 0) 30 [rate] (fun _ ↦ 2 * day) day table
    count = 1 ∧ table'.records.map (fun r ↦ (r.id, r.actualPrice, r.evaluatedAt)) =
      [(1, some 1, some (2 * day)), (2, none, none), (3, none, none)] := by
  intro rate table
  rw [evaluatePredictionsAsOf_eq _ _ _ _ _ _ (by decide)]
  decide +kernel

end Zaciraci.Trade
