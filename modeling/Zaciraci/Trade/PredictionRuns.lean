import Zaciraci.Trade.Evaluation

namespace Zaciraci.Trade

open Lib Persistence

section Model

/-- The table and, for each evaluation that has begun, the rows it still has to visit. -/
structure Predictions where
  now : Time
  table : PredictionTable
  sessions : List (List DbPredictionRecord)

/-- The statements of the prediction cycles and of the evaluations, in any order. The price of a
record is looked up in the rates as they are then, and without them a lookup or an update failed. -/
inductive PredictionAction
  | tick (d : ℕ)
  | record (predictions : SortedMap TokenAccount (BigDecimal × Time)) (quoteToken : TokenAccount)
  | start (asOf : Time)
  | evaluate (session : ℕ) (rates : Option (List TokenRate))
  | cleanup (retentionDays unevaluatedRetentionDays : UInt32)
  | deleteRange (start stop : Time)

namespace Predictions

def initial (now : Time) : Predictions := ⟨now, ⟨[], 1⟩, []⟩

variable (toF64 : BigDecimal → Option Float) (toleranceMinutes : ℤ)

def step (s : Predictions) : PredictionAction → Predictions
  | .tick d => { s with now := s.now + d }
  | .record predictions quoteToken =>
    { s with table := s.table.batchInsert s.now (buildPredictionRecords predictions quoteToken) }
  | .start asOf => { s with sessions := s.sessions ++ [s.table.getPendingEvaluationsAsOf asOf] }
  | .evaluate session rates =>
    match s.sessions[session]? with
    | some (r :: rest) =>
      let sessions := s.sessions.set session rest
      match rates.bind (evaluationOf toF64 toleranceMinutes · r) with
      | some e => { s with sessions, table := s.table.updateEvaluation r.id e s.now }
      | none => { s with sessions }
    | _ => s
  | .cleanup retentionDays unevaluatedRetentionDays =>
    { s with table := s.table.deleteOldRecords s.now retentionDays unevaluatedRetentionDays }
  | .deleteRange start stop =>
    match s.table.deleteByTargetTimeRange start stop with
    | .ok (_, table) => { s with table }
    | .error _ => s

def run (s : Predictions) (actions : List PredictionAction) : Predictions :=
  actions.foldl (step toF64 toleranceMinutes) s

/-- An evaluation begins for the past, and only when no other one is left. -/
def Orderly : Predictions → List PredictionAction → Prop
  | _, [] => True
  | s, action :: actions =>
    (∀ asOf, action = .start asOf → asOf ≤ s.now ∧ s.sessions.flatten = []) ∧
      Orderly (s.step toF64 toleranceMinutes action) actions

end Predictions

end Model

section Sessions

theorem perm_flatten_set {α : Type} {l : List (List α)} {i : ℕ} {a : α} {rest : List α}
    (h : l[i]? = some (a :: rest)) : l.flatten.Perm (a :: (l.set i rest).flatten) := by
  induction l generalizing i with
  | nil => cases h
  | cons b l ih =>
    cases i with
    | zero =>
      obtain rfl := Option.some.inj h
      exact .refl _
    | succ i =>
      rw [List.getElem?_cons_succ] at h
      rw [List.flatten_cons, List.set_cons_succ, List.flatten_cons]
      exact ((ih h).append_left b).trans List.perm_middle

end Sessions

namespace Predictions

variable {toF64 : BigDecimal → Option Float} {toleranceMinutes : ℤ} {s : Predictions}
  {r : DbPredictionRecord} {t : Time}

def held (s : Predictions) : List ℤ := s.sessions.flatten.map (·.id)

def Gone (s : Predictions) (id : ℤ) : Prop := ∀ q ∈ s.table.records, q.id ≠ id

structure Valid (s : Predictions) : Prop where
  nodup : (s.table.records.map (·.id)).Nodup
  fresh : ∀ q ∈ s.table.records, q.id < s.table.nextId

variable {q : DbPredictionRecord}

theorem Valid.eq (hs : s.Valid) (hq : q ∈ s.table.records) (hr : r ∈ s.table.records)
    (h : q.id = r.id) : q = r :=
  List.inj_on_of_nodup_map hs.nodup hq hr h

variable (toF64 toleranceMinutes s) in
theorem step_evaluate (session : ℕ) (rates : Option (List TokenRate)) :
    s.step toF64 toleranceMinutes (.evaluate session rates) = s ∨
    ∃ q rest, s.sessions[session]? = some (q :: rest) ∧
      (s.step toF64 toleranceMinutes (.evaluate session rates) =
        { s with sessions := s.sessions.set session rest } ∨
      ∃ e, s.step toF64 toleranceMinutes (.evaluate session rates) =
        { s with sessions := s.sessions.set session rest,
                 table := s.table.updateEvaluation q.id e s.now }) := by
  simp only [step]
  split
  · rename_i q rest hsession
    refine .inr ⟨q, rest, hsession, ?_⟩
    split
    · exact .inr ⟨_, rfl⟩
    · exact .inl rfl
  · exact .inl rfl

theorem held_set {session : ℕ} {rest : List DbPredictionRecord}
    (h : s.sessions[session]? = some (q :: rest)) :
    s.held.Perm (q.id :: ((s.sessions.set session rest).flatten.map (·.id))) :=
  (perm_flatten_set h).map _

theorem ids_batchInsert (table : PredictionTable) (now : Time) (news : List NewPredictionRecord) :
    (table.batchInsert now news).records.map (·.id) =
      table.records.map (·.id) ++ (List.range news.length).map fun i : ℕ ↦ table.nextId + i := by
  rw [PredictionTable.batchInsert, List.map_append]
  congr 1
  refine List.ext_getElem (by simp) fun i h₁ h₂ ↦ ?_
  simp [DbPredictionRecord.ofNew]

theorem ids_updateEvaluation (table : PredictionTable) (id : ℤ) (e : Evaluation) (now : Time) :
    (table.updateEvaluation id e now).records.map (·.id) = table.records.map (·.id) := by
  rw [PredictionTable.updateEvaluation, List.map_map]
  refine List.map_congr_left fun q _ ↦ ?_
  dsimp only [Function.comp_apply]
  split_ifs <;> rfl

theorem deleteOldRecords_cases (table : PredictionTable) (now : Time) (days unevaluated : UInt32) :
    table.deleteOldRecords now days unevaluated = table ∨
    ∃ evaluatedCutoff unevaluatedCutoff, evaluatedCutoff ≤ now - 7 * day ∧
      unevaluatedCutoff ≤ now - 7 * day ∧
      table.deleteOldRecords now days unevaluated =
        ⟨table.records.filter (!PredictionTable.isOld evaluatedCutoff unevaluatedCutoff ·),
          table.nextId⟩ := by
  have hcutoff (d : UInt32) :
      now - (max d.toNat PredictionTable.minRetentionDays : ℕ) * day ≤ now - 7 * day := by
    have hdays : (7 : ℤ) ≤ (max d.toNat PredictionTable.minRetentionDays : ℕ) :=
      Int.ofNat_le.2 (le_max_right d.toNat PredictionTable.minRetentionDays)
    exact sub_le_sub_left (mul_le_mul_of_nonneg_right hdays (by decide)) now
  rw [PredictionTable.deleteOldRecords]
  split_ifs
  · exact .inl rfl
  · exact .inr ⟨_, _, hcutoff _, hcutoff _, rfl⟩

def ids (s : Predictions) : List ℤ := s.table.records.map (·.id)

/-- Some rows are dropped, and those that are added have the next ids. -/
def Grows (s s' : Predictions) : Prop :=
  ∃ (kept : List ℤ) (k : ℕ), kept.Sublist s.ids ∧
    s'.ids = kept ++ (List.range k).map (fun i : ℕ ↦ s.table.nextId + i) ∧
    s'.table.nextId = s.table.nextId + k

variable (toF64 toleranceMinutes) in
theorem grows_step (s : Predictions) (action : PredictionAction) :
    s.Grows (s.step toF64 toleranceMinutes action) := by
  have hsame {s' : Predictions} (hids : s'.ids = s.ids) (hnext : s'.table.nextId = s.table.nextId) :
      s.Grows s' :=
    ⟨s.ids, 0, .refl _, by simpa using hids, by simpa using hnext⟩
  have hfilter (p : DbPredictionRecord → Bool) :
      s.Grows { s with table := ⟨s.table.records.filter p, s.table.nextId⟩ } :=
    ⟨(s.table.records.filter p).map (·.id), 0, List.filter_sublist.map _, by simp [ids], by simp⟩
  cases action with
  | tick d => exact hsame rfl rfl
  | record predictions quoteToken =>
    exact ⟨_, _, .refl _, ids_batchInsert s.table s.now _, rfl⟩
  | start asOf => exact hsame rfl rfl
  | evaluate session rates =>
    obtain heq | ⟨q, rest, -, heq | ⟨e, heq⟩⟩ :=
      step_evaluate toF64 toleranceMinutes s session rates
    · rw [heq]
      exact hsame rfl rfl
    · rw [heq]
      exact hsame rfl rfl
    · rw [heq]
      exact hsame (ids_updateEvaluation _ _ _ _) rfl
  | cleanup retentionDays unevaluatedRetentionDays =>
    obtain heq | ⟨_, _, -, -, heq⟩ :=
      deleteOldRecords_cases s.table s.now retentionDays unevaluatedRetentionDays
    · rw [step, heq]
      exact hsame rfl rfl
    · rw [step, heq]
      exact hfilter _
  | deleteRange start stop =>
    rw [step, PredictionTable.deleteByTargetTimeRange]
    split_ifs
    · exact hsame rfl rfl
    · exact hfilter _

theorem Valid.step (hs : s.Valid) (action : PredictionAction) :
    (s.step toF64 toleranceMinutes action).Valid := by
  obtain ⟨kept, k, hkept, hids, hnext⟩ :=
    grows_step toF64 toleranceMinutes s action
  have hfresh : ∀ id ∈ kept, id < s.table.nextId := by
    intro id hid
    obtain ⟨q, hq, rfl⟩ := List.mem_map.1 (hkept.subset hid)
    exact hs.fresh q hq
  have hadded : ∀ id ∈ (List.range k).map (fun i : ℕ ↦ s.table.nextId + i),
      s.table.nextId ≤ id ∧ id < s.table.nextId + k := by
    intro id hid
    obtain ⟨i, hi, rfl⟩ := List.mem_map.1 hid
    have := List.mem_range.1 hi
    omega
  refine ⟨?_, fun q hq ↦ ?_⟩
  · rw [← ids, hids]
    refine List.nodup_append'.2 ⟨hs.nodup.sublist hkept, ?_, fun id hold hnew ↦ ?_⟩
    · exact List.nodup_range.map fun i j hij ↦ by simpa using hij
    · exact absurd (hfresh id hold) (hadded id hnew).1.not_gt
  · have hmem : q.id ∈ (s.step toF64 toleranceMinutes action).ids := List.mem_map_of_mem hq
    rw [hids, List.mem_append] at hmem
    rw [hnext]
    obtain hold | hnew := hmem
    · have := hfresh _ hold
      omega
    · exact (hadded _ hnew).2

/-- Why a row that was evaluated at `t` is gone. -/
def Expired (s : Predictions) (r : DbPredictionRecord) (t : Time)
    (actions : List PredictionAction) : Prop :=
  t + 7 * day < s.now ∨
    ∃ start stop, .deleteRange start stop ∈ actions ∧ start ≤ r.targetTime ∧ r.targetTime ≤ stop

theorem now_le_step (s : Predictions) (action : PredictionAction) :
    s.now ≤ (s.step toF64 toleranceMinutes action).now := by
  cases action with
  | tick d => exact le_add_of_nonneg_right (Int.natCast_nonneg d)
  | evaluate session rates =>
    obtain heq | ⟨q, rest, -, heq | ⟨e, heq⟩⟩ :=
      step_evaluate toF64 toleranceMinutes s session rates
    all_goals rw [heq]
  | deleteRange start stop =>
    simp only [step]
    split <;> exact le_rfl
  | record predictions quoteToken => exact le_rfl
  | start asOf => exact le_rfl
  | cleanup retentionDays unevaluatedRetentionDays => exact le_rfl

variable (toF64 toleranceMinutes) in
/-- A row that is gone does not come back: new rows get new ids. -/
theorem Gone.step {id : ℤ} (h : s.Gone id) (hid : id < s.table.nextId) (action : PredictionAction) :
    (s.step toF64 toleranceMinutes action).Gone id ∧
      id < (s.step toF64 toleranceMinutes action).table.nextId := by
  obtain ⟨kept, k, hkept, hids, hnext⟩ :=
    grows_step toF64 toleranceMinutes s action
  refine ⟨fun q hq heq ↦ ?_, by omega⟩
  have hmem : q.id ∈ (s.step toF64 toleranceMinutes action).ids := List.mem_map_of_mem hq
  rw [hids, List.mem_append] at hmem
  obtain hold | hnew := hmem
  · obtain ⟨q', hq', hid'⟩ := List.mem_map.1 (hkept.subset hold)
    exact h q' hq' (hid'.trans heq)
  · obtain ⟨i, -, hi⟩ := List.mem_map.1 hnew
    omega

theorem gone_filter (hs : s.Valid) (hr : r ∈ s.table.records) {p : DbPredictionRecord → Bool}
    (hp : p r = false) : ∀ q ∈ s.table.records.filter p, q.id ≠ r.id := by
  intro q hq heq
  obtain ⟨hmem, hq⟩ := List.mem_filter.1 hq
  rw [hs.eq hmem hr heq, hp] at hq
  cases hq

variable (toF64 toleranceMinutes) in
theorem step_stays (hs : s.Valid) (hr : r ∈ s.table.records) (ht : r.evaluatedAt = some t)
    (hfree : r.id ∉ s.held) (action : PredictionAction) :
    (r ∈ (s.step toF64 toleranceMinutes action).table.records ∧
      r.id ∉ (s.step toF64 toleranceMinutes action).held) ∨
    (s.step toF64 toleranceMinutes action).Gone r.id ∧
      (s.step toF64 toleranceMinutes action).Expired r t [action] := by
  cases action with
  | tick d => exact .inl ⟨hr, hfree⟩
  | record predictions quoteToken => exact .inl ⟨List.mem_append_left _ hr, hfree⟩
  | start asOf =>
    refine .inl ⟨hr, fun hmem ↦ ?_⟩
    rw [held, step, List.flatten_append, List.map_append, List.mem_append] at hmem
    obtain hold | hnew := hmem
    · exact hfree hold
    · rw [List.flatten_singleton] at hnew
      obtain ⟨q, hq, heq⟩ := List.mem_map.1 hnew
      have hpending := List.mem_filter.1 ((List.perm_insertionSort _ _).mem_iff.1 hq)
      obtain rfl := hs.eq hpending.1 hr heq
      simp [ht] at hpending
  | evaluate session rates =>
    obtain heq | ⟨q, rest, hsession, hstep⟩ :=
      step_evaluate toF64 toleranceMinutes s session rates
    · rw [heq]
      exact .inl ⟨hr, hfree⟩
    · have hperm := held_set hsession
      rw [hperm.mem_iff, List.mem_cons, not_or] at hfree
      obtain heq | ⟨e, heq⟩ := hstep
      · rw [heq]
        exact .inl ⟨hr, hfree.2⟩
      · rw [heq]
        refine .inl ⟨List.mem_map.2 ⟨r, hr, ?_⟩, hfree.2⟩
        rw [if_neg hfree.1]
  | cleanup retentionDays unevaluatedRetentionDays =>
    obtain heq | ⟨evaluatedCutoff, unevaluatedCutoff, hcutoff, -, heq⟩ :=
      deleteOldRecords_cases s.table s.now retentionDays unevaluatedRetentionDays
    · rw [step, heq]
      exact .inl ⟨hr, hfree⟩
    · rw [step, heq]
      cases hold : PredictionTable.isOld evaluatedCutoff unevaluatedCutoff r with
      | true =>
        refine .inr ⟨gone_filter hs hr (by rw [hold]; rfl), .inl ?_⟩
        rw [PredictionTable.isOld, ht, decide_eq_true_iff] at hold
        change t + 7 * day < s.now
        linarith
      | false => exact .inl ⟨List.mem_filter.2 ⟨hr, by rw [hold]; rfl⟩, hfree⟩
  | deleteRange start stop =>
    rw [step, PredictionTable.deleteByTargetTimeRange]
    split_ifs
    · exact .inl ⟨hr, hfree⟩
    · by_cases hrange : start ≤ r.targetTime ∧ r.targetTime ≤ stop
      · refine .inr ⟨gone_filter hs hr (by simpa using hrange), .inr ?_⟩
        exact ⟨start, stop, List.mem_singleton_self _, hrange⟩
      · exact .inl ⟨List.mem_filter.2 ⟨hr, decide_eq_true hrange⟩, hfree⟩

theorem Gone.run {id : ℤ} (h : s.Gone id) (hid : id < s.table.nextId)
    (actions : List PredictionAction) : (s.run toF64 toleranceMinutes actions).Gone id := by
  induction actions generalizing s with
  | nil => exact h
  | cons action actions ih =>
    obtain ⟨h, hid⟩ := h.step toF64 toleranceMinutes hid action
    exact ih h hid

theorem now_le_run (s : Predictions) (actions : List PredictionAction) :
    s.now ≤ (s.run toF64 toleranceMinutes actions).now := by
  induction actions generalizing s with
  | nil => exact le_rfl
  | cons action actions ih => exact (now_le_step s action).trans (ih _)

theorem run_stays (hs : s.Valid) (hr : r ∈ s.table.records) (ht : r.evaluatedAt = some t)
    (hfree : r.id ∉ s.held) (actions : List PredictionAction) :
    r ∈ (s.run toF64 toleranceMinutes actions).table.records ∨
    (s.run toF64 toleranceMinutes actions).Gone r.id ∧
      (s.run toF64 toleranceMinutes actions).Expired r t actions := by
  induction actions generalizing s with
  | nil => exact .inl hr
  | cons action actions ih =>
    obtain ⟨hr', hfree'⟩ | ⟨hgone, hexpired⟩ :=
      step_stays toF64 toleranceMinutes hs hr ht hfree action
    · obtain hstays | ⟨hgone, hexpired⟩ := ih (hs.step action) hr' hfree'
      · exact .inl hstays
      · refine .inr ⟨hgone, hexpired.imp_right ?_⟩
        rintro ⟨start, stop, hmem, hrange⟩
        exact ⟨start, stop, List.mem_cons_of_mem _ hmem, hrange⟩
    · refine .inr ⟨hgone.run ((hs.fresh r hr).trans_le ?_) actions, ?_⟩
      · obtain ⟨_, k, -, -, hnext⟩ :=
          grows_step toF64 toleranceMinutes s action
        omega
      · refine hexpired.imp (fun hlt ↦ hlt.trans_le (now_le_run _ actions)) ?_
        rintro ⟨start, stop, hmem, hrange⟩
        rw [List.mem_singleton] at hmem
        exact ⟨start, stop, hmem ▸ List.mem_cons_self, hrange⟩

/-- An evaluation is written whole, after the time the prediction was for. -/
def Complete (now : Time) (r : DbPredictionRecord) : Prop :=
  ∀ t, r.evaluatedAt = some t → r.targetTime ≤ t ∧ t ≤ now ∧
    r.actualPrice.isSome ∧ r.mape.isSome ∧ r.absoluteError.isSome

/-- What holds in an orderly run: no evaluation still has to visit a row that is evaluated. -/
structure OneByOne (s : Predictions) : Prop extends Valid s where
  held_nodup : s.held.Nodup
  held_fresh : ∀ q ∈ s.sessions.flatten, q.id < s.table.nextId
  due : ∀ q ∈ s.sessions.flatten, q.targetTime ≤ s.now
  agrees : ∀ q ∈ s.sessions.flatten, ∀ r ∈ s.table.records, r.id = q.id →
    r.targetTime = q.targetTime
  free : ∀ r ∈ s.table.records, r.evaluatedAt ≠ none → r.id ∉ s.held
  complete : ∀ r ∈ s.table.records, Complete s.now r

theorem OneByOne.filter (h : s.OneByOne) (p : DbPredictionRecord → Bool) :
    OneByOne { s with table := ⟨s.table.records.filter p, s.table.nextId⟩ } where
  nodup := h.nodup.sublist (List.filter_sublist.map _)
  fresh q hq := h.fresh q (List.mem_of_mem_filter hq)
  held_nodup := h.held_nodup
  held_fresh := h.held_fresh
  due := h.due
  agrees q hq r hr := h.agrees q hq r (List.mem_of_mem_filter hr)
  free r hr := h.free r (List.mem_of_mem_filter hr)
  complete r hr := h.complete r (List.mem_of_mem_filter hr)

theorem OneByOne.visit (h : s.OneByOne) {session : ℕ} {rest : List DbPredictionRecord}
    (hsession : s.sessions[session]? = some (q :: rest)) :
    OneByOne { s with sessions := s.sessions.set session rest } ∧
      q.id ∉ (s.sessions.set session rest).flatten.map (·.id) := by
  have hperm := perm_flatten_set hsession
  have hheld := held_set hsession
  have hsub {q'} (hq : q' ∈ (s.sessions.set session rest).flatten) : q' ∈ s.sessions.flatten :=
    hperm.mem_iff.2 (List.mem_cons_of_mem _ hq)
  have hnodup := hheld.nodup_iff.1 h.held_nodup
  refine ⟨⟨⟨h.nodup, h.fresh⟩, (List.nodup_cons.1 hnodup).2, fun q' hq ↦ h.held_fresh q' (hsub hq),
    fun q' hq ↦ h.due q' (hsub hq), fun q' hq ↦ h.agrees q' (hsub hq), fun r hr ht hmem ↦ ?_,
    h.complete⟩, (List.nodup_cons.1 hnodup).1⟩
  exact h.free r hr ht (hheld.mem_iff.2 (List.mem_cons_of_mem _ hmem))

theorem OneByOne.update (h : s.OneByOne) (e : Evaluation) (hfree : q.id ∉ s.held)
    (hq : q.targetTime ≤ s.now)
    (hagrees : ∀ r ∈ s.table.records, r.id = q.id → r.targetTime = q.targetTime) :
    OneByOne { s with table := s.table.updateEvaluation q.id e s.now } := by
  have hrow {r} (hr : r ∈ (s.table.updateEvaluation q.id e s.now).records) :
      ∃ r' ∈ s.table.records, r.id = r'.id ∧ r.targetTime = r'.targetTime ∧
        (r = r' ∨ r'.id = q.id ∧ r = r'.evaluated e s.now) := by
    obtain ⟨r', hr', rfl⟩ := List.mem_map.1 hr
    split_ifs with hid
    · exact ⟨r', hr', rfl, rfl, .inr ⟨hid, rfl⟩⟩
    · exact ⟨r', hr', rfl, rfl, .inl rfl⟩
  refine ⟨⟨?_, fun r hr ↦ ?_⟩, h.held_nodup, h.held_fresh, h.due, fun q' hq' r hr hid ↦ ?_,
    fun r hr ht ↦ ?_, fun r hr ↦ ?_⟩
  · rw [ids_updateEvaluation]
    exact h.nodup
  · obtain ⟨r', hr', hid, -⟩ := hrow hr
    exact hid ▸ h.fresh r' hr'
  · obtain ⟨r', hr', hid', htarget, -⟩ := hrow hr
    exact htarget.trans (h.agrees q' hq' r' hr' (hid'.symm.trans hid))
  · obtain ⟨r', hr', -, -, rfl | ⟨hid, rfl⟩⟩ := hrow hr
    · exact h.free r hr' ht
    · exact fun hmem ↦ hfree (hid ▸ hmem)
  · obtain ⟨r', hr', -, -, rfl | ⟨hid, rfl⟩⟩ := hrow hr
    · exact h.complete r hr'
    · rintro t ⟨⟩
      exact ⟨(hagrees r' hr' hid).trans_le hq, le_rfl, rfl, rfl, rfl⟩

theorem OneByOne.start (h : s.OneByOne) (hlast : s.sessions.flatten = []) {asOf : Time}
    (hpast : asOf ≤ s.now) :
    OneByOne { s with sessions := s.sessions ++ [s.table.getPendingEvaluationsAsOf asOf] } := by
  have hflatten : (s.sessions ++ [s.table.getPendingEvaluationsAsOf asOf]).flatten =
      s.table.getPendingEvaluationsAsOf asOf := by
    rw [List.flatten_append, hlast, List.nil_append, List.flatten_singleton]
  have hperm : (s.table.getPendingEvaluationsAsOf asOf).Perm _ := List.perm_insertionSort _ _
  have hmem {q} (hq : q ∈ (s.sessions ++ [s.table.getPendingEvaluationsAsOf asOf]).flatten) :
      q ∈ s.table.records ∧ q.evaluatedAt = none ∧ q.targetTime ≤ asOf := by
    have hfilter := List.mem_filter.1 (hperm.mem_iff.1 (hflatten ▸ hq))
    simpa using hfilter
  refine ⟨⟨h.nodup, h.fresh⟩, ?_, fun q hq ↦ h.fresh q (hmem hq).1,
    fun q hq ↦ (hmem hq).2.2.trans hpast, fun q hq r hr hid ↦ ?_, fun r hr ht hheld ↦ ?_,
    h.complete⟩
  · rw [held, hflatten, (hperm.map _).nodup_iff]
    exact h.nodup.sublist (List.filter_sublist.map _)
  · rw [h.toValid.eq hr (hmem hq).1 hid]
  · obtain ⟨q, hq, hid⟩ := List.mem_map.1 hheld
    obtain ⟨hq, hnone, -⟩ := hmem hq
    obtain rfl := h.toValid.eq hq hr hid
    exact ht hnone

theorem OneByOne.record (h : s.OneByOne)
    (predictions : SortedMap TokenAccount (BigDecimal × Time)) (quoteToken : TokenAccount) :
    (s.step toF64 toleranceMinutes (.record predictions quoteToken)).OneByOne := by
  set news := buildPredictionRecords predictions quoteToken
  have hmem {r} (hr : r ∈ (s.table.batchInsert s.now news).records) :
      r ∈ s.table.records ∨ s.table.nextId ≤ r.id ∧ r.evaluatedAt = none := by
    obtain hold | hnew := List.mem_append.1 hr
    · exact .inl hold
    · obtain ⟨i, hi, rfl⟩ := List.mem_mapIdx.1 hnew
      refine .inr ⟨?_, rfl⟩
      exact le_add_of_nonneg_right (Int.natCast_nonneg i)
  refine ⟨h.toValid.step _, h.held_nodup, fun q hq ↦ (h.held_fresh q hq).trans_le ?_, h.due,
    fun q hq r hr hid ↦ ?_, fun r hr ht ↦ ?_, fun r hr t ht ↦ ?_⟩
  · exact le_add_of_nonneg_right (Int.natCast_nonneg _)
  · obtain hold | ⟨hnew, -⟩ := hmem hr
    · exact h.agrees q hq r hold hid
    · have hlt := h.held_fresh q hq
      omega
  · obtain hold | ⟨-, hnone⟩ := hmem hr
    · exact h.free r hold ht
    · exact absurd hnone ht
  · obtain hold | ⟨-, hnone⟩ := hmem hr
    · exact h.complete r hold t ht
    · rw [hnone] at ht
      cases ht

theorem OneByOne.step (h : s.OneByOne) {action : PredictionAction}
    (horderly : ∀ asOf, action = .start asOf → asOf ≤ s.now ∧ s.sessions.flatten = []) :
    (s.step toF64 toleranceMinutes action).OneByOne := by
  cases action with
  | tick d =>
    have hle : s.now ≤ s.now + d := le_add_of_nonneg_right (Int.natCast_nonneg d)
    refine ⟨⟨h.nodup, h.fresh⟩, h.held_nodup, h.held_fresh, fun q hq ↦ (h.due q hq).trans hle,
      h.agrees, h.free, fun r hr t ht ↦ ?_⟩
    obtain ⟨htarget, hnow, hrest⟩ := h.complete r hr t ht
    exact ⟨htarget, hnow.trans hle, hrest⟩
  | record predictions quoteToken => exact h.record predictions quoteToken
  | start asOf =>
    obtain ⟨hpast, hlast⟩ := horderly asOf rfl
    exact h.start hlast hpast
  | evaluate session rates =>
    obtain heq | ⟨q, rest, hsession, hstep⟩ :=
      step_evaluate toF64 toleranceMinutes s session rates
    · rwa [heq]
    · obtain ⟨hvisit, hfree⟩ := h.visit hsession
      have hq : q ∈ s.sessions.flatten :=
        (perm_flatten_set hsession).mem_iff.2 List.mem_cons_self
      obtain heq | ⟨e, heq⟩ := hstep
      · rwa [heq]
      · rw [heq]
        exact hvisit.update e hfree (h.due q hq) (h.agrees q hq)
  | cleanup retentionDays unevaluatedRetentionDays =>
    obtain heq | ⟨_, _, -, -, heq⟩ :=
      deleteOldRecords_cases s.table s.now retentionDays unevaluatedRetentionDays
    · rw [Predictions.step, heq]
      exact h
    · rw [Predictions.step, heq]
      exact h.filter _
  | deleteRange start stop =>
    rw [Predictions.step, PredictionTable.deleteByTargetTimeRange]
    split_ifs
    · exact h
    · exact h.filter _

theorem OneByOne.run {actions : List PredictionAction} (h : s.OneByOne)
    (horderly : s.Orderly toF64 toleranceMinutes actions) :
    (s.run toF64 toleranceMinutes actions).OneByOne := by
  induction actions generalizing s with
  | nil => exact h
  | cons action actions ih => exact ih (h.step horderly.1) horderly.2

theorem oneByOne_initial (now : Time) : (initial now).OneByOne := by
  refine ⟨⟨List.nodup_nil, ?_⟩, List.nodup_nil, ?_, ?_, ?_, ?_, ?_⟩ <;> simp [initial]

/-- After an orderly run, every evaluation is complete and was made after the time the prediction
was for. Whatever follows, with evaluations that overlap or not, such a row is never written again,
and is deleted only more than seven days later or on request. -/
theorem evaluated_once (toF64 : BigDecimal → Option Float) (toleranceMinutes : ℤ) (now : Time)
    (before after : List PredictionAction)
    (horderly : (initial now).Orderly toF64 toleranceMinutes before) :
    let s := (initial now).run toF64 toleranceMinutes before
    let s' := s.run toF64 toleranceMinutes after
    ∀ r ∈ s.table.records, ∀ t, r.evaluatedAt = some t → Complete s.now r ∧
      (r ∈ s'.table.records ∨ s'.Gone r.id ∧ s'.Expired r t after) := by
  intro s s' r hr t ht
  have hone : s.OneByOne := (oneByOne_initial now).run horderly
  refine ⟨hone.complete r hr, run_stays hone.toValid hr ht (hone.free r hr ?_) after⟩
  rw [ht]
  exact Option.some_ne_none t

end Predictions

def oneEvaluation : List PredictionAction :=
  [.record (SortedMap.empty.insert ⟨"aurora"⟩ (2, 0)) ⟨"wrap.near"⟩, .tick (2 * 86400 * 10 ^ 9),
    .start day,
    .evaluate 0 (some [⟨⟨"aurora"⟩, ⟨"wrap.near"⟩, ⟨10 ^ 18, 18⟩, day, 0, none⟩])]

def overlapping : List PredictionAction :=
  [.record (SortedMap.empty.insert ⟨"usdt"⟩ (3, day)) ⟨"wrap.near"⟩, .tick (86400 * 10 ^ 9),
    .start (2 * day), .start (2 * day),
    .evaluate 1 (some [⟨⟨"usdt"⟩, ⟨"wrap.near"⟩, ⟨10 ^ 6, 6⟩, 2 * day, 0, none⟩]),
    .tick (86400 * 10 ^ 9),
    .evaluate 2 (some [⟨⟨"usdt"⟩, ⟨"wrap.near"⟩, ⟨10 ^ 6, 6⟩, 2 * day, 0, none⟩]), .cleanup 1 1]

theorem evaluated_once_oneEvaluation :
    let s := (Predictions.initial 0).run (fun _ ↦ some 0) 30 oneEvaluation
    let s' := s.run (fun _ ↦ some 0) 30 overlapping
    s'.table.records.map (fun r ↦ (r.id, r.evaluatedAt)) =
        [(1, some (2 * day)), (2, some (4 * day))] ∧
      ∃ r ∈ s.table.records, r.evaluatedAt = some (2 * day) ∧ Predictions.Complete s.now r ∧
        r ∈ s'.table.records := by
  intro s s'
  have horderly : (Predictions.initial 0).Orderly (fun _ ↦ some 0) 30 oneEvaluation := by
    refine ⟨fun _ h ↦ ?_, fun _ h ↦ ?_, fun asOf h ↦ ?_, fun _ h ↦ ?_, trivial⟩
    · cases h
    · cases h
    · cases h
      exact ⟨by decide +kernel, by decide +kernel⟩
    · cases h
  obtain ⟨r, hr, ht⟩ : ∃ r ∈ s.table.records, r.evaluatedAt = some (2 * day) := by decide +kernel
  obtain ⟨hcomplete, hstays⟩ := Predictions.evaluated_once (fun _ ↦ some 0) 30 0 oneEvaluation
    overlapping horderly r hr _ ht
  refine ⟨by decide +kernel, r, hr, ht, hcomplete, hstays.resolve_right fun hgone ↦ ?_⟩
  rcases hgone.2 with hlate | ⟨_, _, hmem, -⟩
  · exact absurd hlate (by decide +kernel)
  · simp [overlapping] at hmem

end Zaciraci.Trade
