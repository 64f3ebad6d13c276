import Zaciraci.Persistence.Database

namespace Zaciraci.Persistence

open Lib

structure DbPredictionRecord extends PredictionRecord where
  quoteToken : String
  absoluteError : Option BigDecimal

structure NewPredictionRecord where
  token : String
  quoteToken : String
  predictedPrice : BigDecimal
  dataCutoffTime : Time
  targetTime : Time

structure Evaluation where
  actualPrice : BigDecimal
  mape : Float
  absoluteError : BigDecimal

namespace DbPredictionRecord

def ofNew (id : ℤ) (createdAt : Time) (new : NewPredictionRecord) : DbPredictionRecord where
  id
  token := new.token
  quoteToken := new.quoteToken
  predictedPrice := new.predictedPrice
  dataCutoffTime := new.dataCutoffTime
  targetTime := new.targetTime
  actualPrice := none
  mape := none
  absoluteError := none
  evaluatedAt := none
  createdAt

def evaluated (r : DbPredictionRecord) (e : Evaluation) (now : Time) : DbPredictionRecord :=
  { r with
    actualPrice := some e.actualPrice
    mape := some e.mape
    absoluteError := some e.absoluteError
    evaluatedAt := some now }

end DbPredictionRecord

/-- The rows and the next value of the column `id`, which is a serial one. -/
structure PredictionTable where
  records : List DbPredictionRecord
  nextId : ℤ

namespace PredictionTable

def batchInsert (table : PredictionTable) (now : Time) (news : List NewPredictionRecord) :
    PredictionTable where
  records := table.records ++ news.mapIdx fun i new ↦ .ofNew (table.nextId + i) now new
  nextId := table.nextId + news.length

def getPendingEvaluationsAsOf (table : PredictionTable) (asOf : Time) : List DbPredictionRecord :=
  (table.records.filter fun r ↦ r.evaluatedAt.isNone ∧ r.targetTime ≤ asOf).insertionSort
    fun a b ↦ a.targetTime ≤ b.targetTime

def updateEvaluation (table : PredictionTable) (id : ℤ) (e : Evaluation) (now : Time) :
    PredictionTable :=
  { table with records := table.records.map fun r ↦ if r.id = id then r.evaluated e now else r }

def deleteByTargetTimeRange (table : PredictionTable) (start stop : Time) :
    Except String (ℕ × PredictionTable) :=
  if stop < start then .error s!"invalid range: start ({start}) > end ({stop})"
  else
    let kept := table.records.filter fun r ↦ ¬ (start ≤ r.targetTime ∧ r.targetTime ≤ stop)
    .ok (table.records.length - kept.length, { table with records := kept })

/-- The first time within a span at which a row is made that is for a later time. -/
def earliestFreshVisibleIn (table : PredictionTable) (since stop : Time) : Option Time :=
  if stop ≤ since then none
  else ((table.records.filter fun r ↦
    since ≤ r.createdAt ∧ r.createdAt < stop ∧ r.createdAt < r.targetTime).map (·.createdAt)).min?

def minRetentionDays : ℕ := 7

/-- A row is old if it was evaluated before the first cutoff, or is not evaluated and was for a time
before the second one. -/
def isOld (evaluatedCutoff unevaluatedCutoff : Time) (r : DbPredictionRecord) : Bool :=
  match r.evaluatedAt with
  | some t => t < evaluatedCutoff
  | none => r.targetTime < unevaluatedCutoff

def deleteOldRecords (table : PredictionTable) (now : Time)
    (retentionDays unevaluatedRetentionDays : UInt32) : PredictionTable :=
  if retentionDays = 0 ∧ unevaluatedRetentionDays = 0 then table
  else
    let effectiveRetention := max retentionDays.toNat minRetentionDays
    let effectiveUnevaluated := max unevaluatedRetentionDays.toNat minRetentionDays
    let evaluatedCutoff := now - effectiveRetention * day
    let unevaluatedCutoff := now - effectiveUnevaluated * day
    { table with records := table.records.filter (!isOld evaluatedCutoff unevaluatedCutoff ·) }

end PredictionTable

end Zaciraci.Persistence
