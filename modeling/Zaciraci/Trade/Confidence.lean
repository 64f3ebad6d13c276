import Zaciraci.Lib.Ties
import Zaciraci.Simulate.Client

namespace Zaciraci.Trade

open Lib Persistence

structure AccuracySettings where
  minSamples : ℕ
  mapeExcellent : Float
  mapePoor : Float

section Model

def clampUnit (x : Float) : Float := if x < 0 then 0 else if 1 < x then 1 else x

def mapeToConfidence (mape excellent poor : Float) : Float :=
  if !mape.isFinite then 0
  else
    let range := poor - excellent
    if range.abs < 1e-9 then if mape ≤ excellent then 1 else 0
    else clampUnit ((poor - mape) / range)

def isDirectionCorrect (prevActual predicted actual : BigDecimal) : Bool :=
  decide (0 ≤ predicted - prevActual) == decide (0 ≤ actual - prevActual)

def calculateCompositeConfidence (rollingMape : Float) (hitRate : Option Float)
    (mapeExcellent mapePoor : Float) : Float :=
  let mapeConfidence := mapeToConfidence rollingMape mapeExcellent mapePoor
  match hitRate with
  | some hr => 0.6 * mapeConfidence + 0.4 * clampUnit ((hr - 0.5) * 2)
  | none => mapeConfidence

def predictionHorizonHours : ℤ := 24

def maxGap : Time := predictionHorizonHours * 3 / 2 * (3600 * 10 ^ 9)

/-- The pairs of neighbours whose direction was predicted well, and all pairs that count. -/
def calculateDirectionAccuracyForRecords (records : List PredictionRecord) : ℕ × ℕ :=
  (records.zip records.tail).foldl (fun counts pair ↦
    if maxGap < pair.1.targetTime - pair.2.targetTime then counts
    else
      match pair.1.actualPrice, pair.2.actualPrice with
      | some actual, some prevActual =>
        (if isDirectionCorrect prevActual pair.1.predictedPrice actual then counts.1 + 1
          else counts.1, counts.2 + 1)
      | _, _ => counts) (0, 0)

def recordsOf (window : ℤ) (records : List PredictionRecord) (token : TokenAccount) :
    Option (List PredictionRecord) :=
  ((groupBy (·.token) records).get (toString token)).map fun entries ↦
    (entries.insertionSort fun a b ↦ b.targetTime ≤ a.targetTime).take window.toNat

def confidenceOf (settings : AccuracySettings) (records : Option (List PredictionRecord)) :
    Option Float :=
  let mapeValues := ((records.getD []).filterMap (·.mape)).filter Float.isFinite
  if mapeValues.length < settings.minSamples then none
  else
    let avgMape := mapeValues.foldl (· + ·) 0 / mapeValues.length.toFloat
    let hitRate := (records.map calculateDirectionAccuracyForRecords).bind fun counts ↦
      if settings.minSamples ≤ counts.2 then some (counts.1.toFloat / counts.2.toFloat) else none
    some (calculateCompositeConfidence avgMape hitRate settings.mapeExcellent settings.mapePoor)

def confidencesOf (settings : AccuracySettings) (window : ℤ) (records : List PredictionRecord)
    (tokens : List TokenAccount) : SortedMap TokenAccount Float :=
  tokens.foldl (fun result token ↦
    match confidenceOf settings (recordsOf window records token) with
    | some confidence => result.insert token confidence
    | none => result) .empty

def accuracyWindow (cfg : ConfigAccess) : ℤ := max cfg.predictionAccuracyWindow 1

def queryLimit (cfg : ConfigAccess) (tokens : List TokenAccount) : ℤ :=
  min (accuracyWindow cfg * tokens.length) maxPredictionQueryLimit

/-- What `calculate_per_token_confidence` returns when its query is answered by `records`. -/
def perTokenConfidence (cfg : ConfigAccess) (settings : AccuracySettings)
    (records : List PredictionRecord) (tokens : List TokenAccount) :
    SortedMap TokenAccount Float :=
  confidencesOf settings (accuracyWindow cfg) records tokens

/-- The records of a token from the newest on that its confidence is computed from. -/
def usedRecords (cfg : ConfigAccess) (records : List PredictionRecord) (token : TokenAccount) :
    List PredictionRecord :=
  (recordsOf (accuracyWindow cfg) records token).getD []

/-- An answer to the query of the evaluated predictions. The database sorts them by their targets
only, and may answer in any order of equal ones. -/
def MayAnswer (db : Database) (limit : ℤ) (tokens : List TokenAccount)
    (records : List PredictionRecord) : Prop :=
  ∃ sorted, Descending (·.targetTime) (db.evaluatedRows tokens) sorted ∧
    records = sorted.take limit.toNat

end Model

theorem mayAnswer_getRecentEvaluatedForTokens (db : Database) (limit : ℤ)
    (tokens : List TokenAccount) :
    MayAnswer db limit tokens (db.getRecentEvaluatedForTokens limit tokens) :=
  ⟨_, .insertionSort _ _, rfl⟩

theorem exec_calculatePerTokenConfidence (cfg : ConfigAccess) (settings : AccuracySettings)
    (analysis : Analysis) (h : analysis.confidence = confidencesOf settings (accuracyWindow cfg))
    (records : List PredictionRecord) (tokens : List TokenAccount) :
    (calculatePerTokenConfidence analysis tokens cfg).Exec
      [⟨.db (.recentEvaluatedForTokens (queryLimit cfg tokens) tokens), .ok records⟩]
      (.ok (perTokenConfidence cfg settings records tokens)) := by
  refine .ask _ ?_
  rw [perTokenConfidence, ← h]
  exact .done _

section Records

variable {db : Database} {cfg : ConfigAccess} {settings : AccuracySettings} {window limit : ℤ}
  {tokens : List TokenAccount} {token : TokenAccount} {records : List PredictionRecord}

theorem get_confidencesOf :
    (confidencesOf settings window records tokens).get token =
      if token ∈ tokens then confidenceOf settings (recordsOf window records token) else none := by
  induction tokens using List.reverseRecOn with
  | nil => rfl
  | append_singleton tokens token' ih =>
    rw [confidencesOf, List.foldl_append, List.foldl_cons, List.foldl_nil, ← confidencesOf]
    by_cases heq : token = token'
    · subst heq
      rw [if_pos (by simp)]
      cases hconf : confidenceOf settings (recordsOf window records token) with
      | some confidence => exact SortedMap.get_insert_self ..
      | none =>
        refine ih.trans ?_
        rw [hconf, ite_self]
    · have hmem : token ∈ tokens ++ [token'] ↔ token ∈ tokens := by simp [heq]
      rw [if_congr hmem rfl rfl, ← ih]
      cases confidenceOf settings (recordsOf window records token') with
      | some confidence => exact SortedMap.get_insert_of_ne heq
      | none => rfl

abbrev Newer (a b : PredictionRecord) : Prop := b.targetTime ≤ a.targetTime

instance : IsTrans PredictionRecord Newer := ⟨fun _ _ _ hab hbc ↦ le_trans hbc hab⟩

instance : Std.Total Newer := ⟨fun a b ↦ le_total b.targetTime a.targetTime⟩

theorem MayAnswer.sorted (h : MayAnswer db limit tokens records) : records.Pairwise Newer := by
  obtain ⟨sorted, hsorted, rfl⟩ := h
  exact hsorted.sorted.sublist (List.take_sublist _ _)

theorem filter_evaluatedRows (db : Database) (htoken : token ∈ tokens) :
    (db.evaluatedRows tokens).filter (·.token = toString token) = db.evaluatedRows [token] := by
  rw [Database.evaluatedRows, List.filter_filter, Database.evaluatedRows]
  congr 1
  funext r
  have hmem : r.token = toString token → r.token ∈ tokens.map toString := fun h ↦
    h ▸ List.mem_map_of_mem htoken
  simp only [Bool.decide_and, List.map_cons, List.map_nil, List.mem_singleton]
  grind

theorem window_pos (cfg : ConfigAccess) : 0 < (accuracyWindow cfg).toNat := by
  have : 1 ≤ accuracyWindow cfg := le_max_right ..
  omega

theorem recordsOf_eq (hsorted : records.Pairwise Newer) (hwindow : 0 < window.toNat) :
    recordsOf window records token =
      if (records.filter (·.token = toString token)).take window.toNat = [] then none
      else some ((records.filter (·.token = toString token)).take window.toNat) := by
  have hfilter := (hsorted.filter (·.token = toString token)).insertionSort_eq
  have hnil : (records.filter (·.token = toString token)).take window.toNat = [] ↔
      records.filter (·.token = toString token) = [] := by
    rw [List.take_eq_nil_iff, or_iff_right (by omega)]
  rw [recordsOf, get_groupBy, if_congr hnil rfl rfl]
  split_ifs
  · rfl
  · rw [Option.map_some, hfilter]

theorem usedRecords_eq (hsorted : records.Pairwise Newer) :
    usedRecords cfg records token =
      (records.filter (·.token = toString token)).take (accuracyWindow cfg).toNat := by
  rw [usedRecords, recordsOf_eq hsorted (window_pos cfg)]
  split_ifs with hnil
  · exact hnil.symm
  · rfl

theorem confidence_eq (hsorted : records.Pairwise Newer) (htoken : token ∈ tokens) :
    (perTokenConfidence cfg settings records tokens).get token =
      confidenceOf settings (if usedRecords cfg records token = [] then none
        else some (usedRecords cfg records token)) := by
  rw [perTokenConfidence, get_confidencesOf, if_pos htoken, recordsOf_eq hsorted (window_pos cfg),
    usedRecords_eq hsorted]

theorem usedRecords_alone (h : MayAnswer db (queryLimit cfg [token]) [token] records) :
    usedRecords cfg records token = records := by
  rw [usedRecords_eq h.sorted]
  obtain ⟨sorted, hsorted, rfl⟩ := h
  have hall (r) (hr : r ∈ sorted.take (queryLimit cfg [token]).toNat) :
      decide (r.token = toString token) = true := by
    have hrow := hsorted.perm.mem_iff.1 (List.mem_of_mem_take hr)
    rw [Database.evaluatedRows, List.mem_filter] at hrow
    simpa using (of_decide_eq_true hrow.2).2
  have hlimit : queryLimit cfg [token] ≤ accuracyWindow cfg := by simp [queryLimit]
  rw [List.filter_eq_self.2 hall, List.take_take, min_eq_right (by omega)]

end Records

/-- The condition on the table, for each record that is among the newest of its token: no other one
of the token has its target, and of all listed tokens no more than the limit have a target that is
not before it. -/
def Covered (db : Database) (cfg : ConfigAccess) (tokens : List TokenAccount)
    (token : TokenAccount) : Prop :=
  ∀ r ∈ db.evaluatedRows [token],
    (db.evaluatedRows [token]).countP (r.targetTime < ·.targetTime) < (accuracyWindow cfg).toNat →
    (∀ s ∈ db.evaluatedRows [token], s.targetTime = r.targetTime → s.id = r.id) ∧
      (db.evaluatedRows tokens).countP (r.targetTime ≤ ·.targetTime) ≤
        (accuracyWindow cfg).toNat * tokens.length

theorem covered_iff {db : Database} {cfg : ConfigAccess} {tokens : List TokenAccount}
    {token : TokenAccount} (hids : (db.predictionRecords.map (·.id)).Nodup)
    (htoken : token ∈ tokens) :
    Covered db cfg tokens token ↔
      ∀ l l', Descending (·.targetTime) (db.evaluatedRows tokens) l →
        Descending (·.targetTime) (db.evaluatedRows [token]) l' →
        ((l.take ((accuracyWindow cfg).toNat * tokens.length)).filter
          (·.token = toString token)).take (accuracyWindow cfg).toNat =
          l'.take (accuracyWindow cfg).toNat := by
  have hnodup : (db.evaluatedRows tokens).Nodup := hids.of_map.filter _
  rw [← filter_evaluatedRows db htoken, Descending.forall_take_filter_take_eq_iff _ _ _ _ hnodup,
    filter_evaluatedRows db htoken]
  refine forall₂_congr fun r hr ↦ imp_congr_right fun _ ↦ and_congr_left fun _ ↦ ?_
  refine forall₂_congr fun s hs ↦ imp_congr_right fun _ ↦ ⟨fun hid ↦ ?_, congrArg _⟩
  exact List.inj_on_of_nodup_map hids (List.mem_of_mem_filter hs) (List.mem_of_mem_filter hr) hid

/-- The tokens share one limited query. So each is measured by its own newest records, as if it were
the only one and whatever the order of equal targets, exactly if no other token takes up too much of
the limit and its own targets differ. -/
theorem perTokenConfidence_independent_iff (db : Database) (cfg : ConfigAccess)
    (settings : AccuracySettings) (tokens : List TokenAccount)
    (hids : (db.predictionRecords.map (·.id)).Nodup)
    (hcap : accuracyWindow cfg * tokens.length ≤ maxPredictionQueryLimit) :
    (∀ token ∈ tokens, ∀ joint alone, MayAnswer db (queryLimit cfg tokens) tokens joint →
      MayAnswer db (queryLimit cfg [token]) [token] alone →
      usedRecords cfg joint token = alone ∧
      (perTokenConfidence cfg settings joint tokens).get token =
        (perTokenConfidence cfg settings alone [token]).get token) ↔
    ∀ token ∈ tokens, Covered db cfg tokens token := by
  have hpos : 1 ≤ accuracyWindow cfg := le_max_right ..
  have hlimit : (queryLimit cfg tokens).toNat = (accuracyWindow cfg).toNat * tokens.length := by
    rw [queryLimit, min_eq_left hcap, Int.toNat_mul (by omega) (by omega), Int.toNat_natCast]
  refine forall₂_congr fun token htoken ↦ ?_
  have hwindow : queryLimit cfg [token] = accuracyWindow cfg := by
    have hlength := List.length_pos_of_mem htoken
    have hle : accuracyWindow cfg ≤ maxPredictionQueryLimit :=
      (le_mul_of_one_le_right (by omega) (by omega)).trans hcap
    rw [queryLimit, List.length_singleton, Nat.cast_one, mul_one, min_eq_left hle]
  rw [covered_iff hids htoken, ← hlimit, ← hwindow]
  refine ⟨fun h l l' hl hl' ↦ ?_, fun h joint alone hjoint halone ↦ ?_⟩
  · have hjoint : MayAnswer db (queryLimit cfg tokens) tokens _ := ⟨l, hl, rfl⟩
    have halone : MayAnswer db (queryLimit cfg [token]) [token] _ := ⟨l', hl', rfl⟩
    have hused := (h _ _ hjoint halone).1
    rwa [usedRecords_eq hjoint.sorted, ← hwindow] at hused
  · have hused : usedRecords cfg joint token = alone := by
      rw [usedRecords_eq hjoint.sorted]
      obtain ⟨l, hl, rfl⟩ := hjoint
      obtain ⟨l', hl', rfl⟩ := halone
      rw [← hwindow]
      exact h l l' hl hl'
    refine ⟨hused, ?_⟩
    rw [confidence_eq hjoint.sorted htoken, confidence_eq halone.sorted (List.mem_singleton_self _),
      hused, usedRecords_alone halone]

def narrowWindow : ConfigAccess := { Simulate.simulationConfig with predictionAccuracyWindow := 2 }

def evaluatedPrediction (id : ℤ) (token : String) (targetTime : Time) : PredictionRecord where
  id := id
  token := token
  predictedPrice := 2
  dataCutoffTime := targetTime - day
  targetTime := targetTime
  actualPrice := some 2
  mape := some 0
  evaluatedAt := some targetTime
  createdAt := targetTime - day

def predictionTable (records : List PredictionRecord) : Database := ⟨[], [], records, [], [], []⟩

def balancedTable : Database :=
  predictionTable [
    evaluatedPrediction 1 "a.near" (4 * day), evaluatedPrediction 2 "b.near" (4 * day),
    evaluatedPrediction 3 "a.near" (3 * day), evaluatedPrediction 4 "b.near" (3 * day),
    evaluatedPrediction 5 "a.near" (2 * day), evaluatedPrediction 6 "b.near" (2 * day)]

theorem perTokenConfidence_independent_balanced :
    (balancedTable.predictionRecords.map (·.id)).Nodup ∧
    accuracyWindow narrowWindow * 2 ≤ maxPredictionQueryLimit ∧
    ∀ token ∈ [⟨"a.near"⟩, ⟨"b.near"⟩], ∀ joint alone,
      MayAnswer balancedTable 4 [⟨"a.near"⟩, ⟨"b.near"⟩] joint →
      MayAnswer balancedTable 2 [token] alone →
      usedRecords narrowWindow joint token = alone ∧
      (perTokenConfidence narrowWindow ⟨1, 3, 15⟩ joint [⟨"a.near"⟩, ⟨"b.near"⟩]).get token =
        (perTokenConfidence narrowWindow ⟨1, 3, 15⟩ alone [token]).get token := by
  have hids : (balancedTable.predictionRecords.map (·.id)).Nodup := by decide
  have hcap : accuracyWindow narrowWindow * 2 ≤ maxPredictionQueryLimit := by decide
  refine ⟨hids, hcap, (perTokenConfidence_independent_iff balancedTable narrowWindow ⟨1, 3, 15⟩
    [⟨"a.near"⟩, ⟨"b.near"⟩] hids hcap).2 ?_⟩
  simp only [List.forall_mem_cons]
  exact ⟨by unfold Covered; decide, by unfold Covered; decide, by simp⟩

def crowdedTable : Database :=
  predictionTable [
    evaluatedPrediction 1 "a.near" (6 * day), evaluatedPrediction 2 "a.near" (5 * day),
    evaluatedPrediction 3 "a.near" (4 * day), evaluatedPrediction 4 "a.near" (3 * day),
    evaluatedPrediction 5 "b.near" (2 * day), evaluatedPrediction 6 "b.near" day]

def crowdedAnswer (tokens : List TokenAccount) : List PredictionRecord :=
  crowdedTable.getRecentEvaluatedForTokens (queryLimit narrowWindow tokens) tokens

/-- The records of one token fill the limit, and the other has no confidence, though the table holds
a full window of its records. -/
theorem perTokenConfidence_crowded_out :
    accuracyWindow narrowWindow * 2 ≤ maxPredictionQueryLimit ∧
    usedRecords narrowWindow (crowdedAnswer [⟨"a.near"⟩, ⟨"b.near"⟩]) ⟨"b.near"⟩ = [] ∧
    (usedRecords narrowWindow (crowdedAnswer [⟨"b.near"⟩]) ⟨"b.near"⟩).map (·.id) = [5, 6] ∧
    (perTokenConfidence narrowWindow ⟨1, 3, 15⟩ (crowdedAnswer [⟨"a.near"⟩, ⟨"b.near"⟩])
      [⟨"a.near"⟩, ⟨"b.near"⟩]).get ⟨"b.near"⟩ = none ∧
    (Float.isFinite 0 = true →
      (perTokenConfidence narrowWindow ⟨1, 3, 15⟩ (crowdedAnswer [⟨"b.near"⟩])
        [⟨"b.near"⟩]).get ⟨"b.near"⟩ ≠ none) := by
  have hsorted (tokens) : (crowdedAnswer tokens).Pairwise Newer :=
    (mayAnswer_getRecentEvaluatedForTokens ..).sorted
  have hnone : usedRecords narrowWindow (crowdedAnswer [⟨"a.near"⟩, ⟨"b.near"⟩]) ⟨"b.near"⟩ = [] :=
    by decide
  have htwo : usedRecords narrowWindow (crowdedAnswer [⟨"b.near"⟩]) ⟨"b.near"⟩ =
      [evaluatedPrediction 5 "b.near" (2 * day), evaluatedPrediction 6 "b.near" day] := rfl
  refine ⟨by decide, hnone, by rw [htwo]; rfl, ?_, fun hfinite ↦ ?_⟩
  · rw [confidence_eq (hsorted _) (by decide), hnone]
    rfl
  · rw [confidence_eq (hsorted _) (by decide), htwo, if_neg (List.cons_ne_nil _ _), confidenceOf]
    simp [evaluatedPrediction, hfinite]

end Zaciraci.Trade
